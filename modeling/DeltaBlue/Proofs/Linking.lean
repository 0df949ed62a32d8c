import DeltaBlue.Proofs.Chains
import DeltaBlue.Proofs.Drafting

/-!
# Making chains

The variables of a chain are new, so they are distinct. When a link is made, the variable that it leads
to has none yet, and all variables have the one value that the chain begins with, which copies keep. So
each step leads from a chain that is held by a solver to a chain with one more link.
-/

namespace DeltaBlue

/-! ## Declaring links -/

namespace Draft

variable {W T : Type} {draft draft₁ : Draft W T} {d : Definition W T} {m : Method W T} {v w : VarId}

/-- A copy that is accepted goes into the draft, and the rest follows. -/
theorem registerAll_copyOf {rest : List (Registration W T)}
    (h : draft.push (.copy w v) = .ok draft₁) :
    draft.registerAll (SolveM.copyOf w v :: rest) = draft₁.registerAll rest := by
  have hregister : draft.register (SolveM.copyOf w v) = draft.offer (.copy w v) := rfl
  rw [registerAll, hregister, offer, h]

/-- A draft with copies of two variables amounts to a link between them. -/
theorem exists_build_links {twoWay : Bool} (hstrength : draft.strength = .strong)
    (hvolatile : draft.volatile = false)
    (hmethods : draft.methods = .copy w v :: if twoWay then [.copy v w] else []) :
    ∃ d, draft.build = .ok d ∧ d.Links twoWay v w := by
  have hvars : ∀ m ∈ draft.methods, ∀ u, u ∈ m.vars ↔ u = v ∨ u = w := by
    intro m hm u
    have hpair : m = .copy w v ∨ m = .copy v w := by
      rw [hmethods] at hm
      cases twoWay with
      | false => exact .inl (List.mem_singleton.1 hm)
      | true => exact List.mem_pair.1 hm
    rcases hpair with rfl | rfl
    · exact List.mem_pair.trans or_comm
    · exact List.mem_pair
  obtain ⟨d, hd⟩ : ∃ d, draft.build = .ok d :=
    exists_build (by rw [hmethods]; nofun) fun m hm n hn u hu =>
      (hvars m hm u).2 ((hvars n hn u).1 hu)
  obtain ⟨hs, hv⟩ := heads_of_build hd
  exact ⟨d, hd, (methods_of_build hd).trans hmethods, hs.trans hstrength, hv.trans hvolatile⟩

/-- Copies of two variables, one or both ways, declare a link between them. -/
theorem exists_define_links (twoWay : Bool) (hne : v ≠ w) :
    ∃ d : Definition W T, define .strong
      (SolveM.copyOf w v :: if twoWay then [SolveM.copyOf v w] else []) = .ok d ∧
        d.Links twoWay v w := by
  have hproper : ∀ {v w : VarId}, v ≠ w → (.copy w v : Method W T).Proper := fun hne =>
    ⟨List.nodup_singleton _, fun hmem => hne (List.mem_singleton.1 hmem).symm⟩
  obtain ⟨draft₁, h₁⟩ : ∃ draft₁, (empty .strong : Draft W T).push (.copy w v) = .ok draft₁ :=
    exists_push (fault?_eq_none_iff.2 ⟨List.not_mem_nil, hproper hne⟩)
  have hmethods₁ : draft₁.methods = [.copy w v] := methods_of_push h₁
  obtain ⟨hstrength₁, hvolatile₁⟩ := heads_of_push h₁
  unfold define
  rw [registerAll_copyOf h₁]
  cases twoWay with
  | false => exact exists_build_links hstrength₁ hvolatile₁ hmethods₁
  | true =>
    obtain ⟨draft₂, h₂⟩ : ∃ draft₂, draft₁.push (.copy v w) = .ok draft₂ :=
      exists_push (fault?_eq_none_iff.2
        ⟨by rw [hmethods₁]; exact fun hmem => hne (List.mem_singleton.1 hmem), hproper hne.symm⟩)
    obtain ⟨hstrength₂, hvolatile₂⟩ := heads_of_push h₂
    rw [if_pos rfl, registerAll_copyOf h₂]
    refine exists_build_links (hstrength₂.trans hstrength₁) (hvolatile₂.trans hvolatile₁) ?_
    rw [methods_of_push h₂, hmethods₁]
    rfl

end Draft

/-! ## Making variables -/

namespace Solver

variable {W T : Type} {s s' : Solver W T} {x y : Variable T} {u v : VarId}

/-- The variable is found under its key. -/
theorem Made.stored (h : s.Made s' x (.ok v)) : s'.variableAt? v = some x :=
  (h.2 v).trans (if_pos rfl)

/-- The variables that were there before are the same. -/
theorem Made.kept (h : s.Made s' x (.ok v)) (hu : s.variableAt? u = some y) :
    s'.variableAt? u = some y := by
  rw [h.2, if_neg, hu]
  rintro rfl
  cases h.1.symm.trans hu

/-- What does not exist afterwards did not exist before. -/
theorem Made.fresh (h : s.Made s' x (.ok v)) (hu : s'.variableAt? u = none) :
    s.variableAt? u = none := by
  by_contra hne
  obtain ⟨y, hy⟩ := Option.ne_none_iff_exists'.1 hne
  cases hu.symm.trans (h.kept hy)

/-- With a variable that is made there is one more. -/
theorem Made.size_vars (h : s.Made s' x (.ok v)) : s'.vars.size = s.vars.size + 1 := by
  have hkeys : ∀ u, u ∈ s.vars.keys.toFinset ↔ (s.variableAt? u).isSome :=
    fun u => List.mem_toFinset.trans Arena.mem_keys
  have hkeys' : ∀ u, u ∈ insert v s.vars.keys.toFinset ↔ (s'.variableAt? u).isSome := by
    intro u
    rw [Finset.mem_insert, hkeys, h.2]
    split
    · next hu => exact iff_of_true (.inl hu) rfl
    · next hu => exact or_iff_right hu
  have hv : v ∉ s.vars.keys.toFinset := by
    rw [hkeys, h.1]
    exact Bool.false_ne_true
  rw [Arena.size_eq_card hkeys', Arena.size_eq_card hkeys, Finset.card_insert_of_notMem hv]

end Solver

namespace SolveM

variable {W T : Type} {m : Machine W T} {values : List T}

/-- Variables that are made are new and distinct, each with its value; all else is as before. -/
theorem ensures_newVariables_made (values : List T) (m : Machine W T) :
    Ensures (newVariables values) m fun r m' =>
      (∀ k, m'.solver.constraintAt? k = m.solver.constraintAt? k) ∧
      (∀ v x, m.solver.variableAt? v = some x → m'.solver.variableAt? v = some x) ∧
      ∀ vars, r = .ok vars → vars.Nodup ∧ (∀ v ∈ vars, m.solver.variableAt? v = none) ∧
        vars.map m'.solver.variableAt? = values.map fun value => some { cell := .assigned value } := by
  -- by induction on the values; each variable is new to the ones made before it
  induction values generalizing m with
  | nil =>
    refine (ensures_pure _).2 ⟨fun _ => rfl, fun _ _ hx => hx, ?_⟩
    rintro _ ⟨⟩
    exact ⟨.nil, fun v hv => absurd hv List.not_mem_nil, rfl⟩
  | cons value values ih =>
    unfold newVariables newVariable
    rw [ensures_bind]
    refine (ensures_storeVariable_made _).mono ?_
    rintro r m₁ ⟨hmade, hconstraints⟩
    cases r with
    | error e => exact ⟨hconstraints, fun v _ hx => (hmade v).trans hx, fun _ hr => by cases hr⟩
    | ok v =>
      refine (ensures_bind _ _).2 ((ih m₁).mono ?_)
      rintro r m₂ ⟨hconstraints₂, hkept, hvars⟩
      have hall : ∀ k, m₂.solver.constraintAt? k = m.solver.constraintAt? k :=
        fun k => (hconstraints₂ k).trans (hconstraints k)
      cases r with
      | error e => exact ⟨hall, fun u x hx => hkept u x (hmade.kept hx), fun _ hr => by cases hr⟩
      | ok rest =>
        obtain ⟨hnodup, hnew, hrest⟩ := hvars rest rfl
        refine (ensures_pure _).2 ⟨hall, fun u x hx => hkept u x (hmade.kept hx), ?_⟩
        rintro _ ⟨⟩
        refine ⟨List.nodup_cons.2 ⟨fun hmem => ?_, hnodup⟩, ?_, ?_⟩
        · cases hmade.stored.symm.trans (hnew v hmem)
        · exact List.forall_mem_cons.2 ⟨hmade.1, fun u hu => hmade.fresh (hnew u hu)⟩
        · rw [List.map_cons, List.map_cons, hkept v _ hmade.stored, hrest]

/-- Variables can be made as long as there is room. -/
theorem ensures_newVariables_ok (hroom : m.solver.vars.size + values.length ≤ Arena.maxSlots) :
    Ensures (newVariables values) m fun r _ => ∃ vars, r = .ok vars := by
  induction values generalizing m with
  | nil => exact (ensures_pure _).2 ⟨[], rfl⟩
  | cons value values ih =>
    rw [List.length_cons] at hroom
    unfold newVariables newVariable
    rw [ensures_bind]
    refine ((ensures_storeVariable_ok (by omega)).and (ensures_storeVariable_made _)).mono ?_
    rintro _ m₁ ⟨⟨v, rfl⟩, hmade, _⟩
    refine (ensures_bind _ _).2 ((ih ?_).mono ?_)
    · rw [hmade.size_vars]
      omega
    · rintro _ m₂ ⟨vars, rfl⟩
      exact (ensures_pure _).2 ⟨v :: vars, rfl⟩

/-- Variables are made aside, so the graph is as sound as before. -/
theorem ensures_newVariables_aside {cells : Prop} (h : m.solver.Sound cells) :
    Ensures (newVariables values) m fun _ m' =>
      m'.solver.Sound cells ∧ m.solver.Aside m'.solver := by
  induction values generalizing m with
  | nil => exact (ensures_pure _).2 ⟨h, Solver.Aside.transitive.refl _⟩
  | cons value values ih =>
    rw [newVariables, newVariable, ensures_bind]
    refine (ensures_storeVariable ⟨rfl, rfl, rfl, rfl, rfl⟩ h).mono ?_
    rintro r m₁ ⟨⟨h₁, hbeside⟩, _⟩
    have haside := hbeside.toAside
    cases r with
    | error e => exact ⟨h₁, haside⟩
    | ok v =>
      refine (ensures_bind _ _).2 ((ih h₁).mono ?_)
      rintro r m₂ ⟨h₂, haside₂⟩
      cases r with
      | error e => exact ⟨h₂, Solver.Aside.transitive.trans haside haside₂⟩
      | ok rest => exact (ensures_pure _).2 ⟨h₂, Solver.Aside.transitive.trans haside haside₂⟩

end SolveM

namespace Chain

open SolveM (Ensures StopsOnForest newVariables forward_frame)

variable {W T : Type} {m : Machine W T} {chain : Chain} {twoWay : Bool} {pins : Finset ConstraintId}
  {value : T} {fuel : Nat}

/-- The solver holds the chain and nothing else, all links are enabled, and all variables have the same
value. -/
structure Laid (chain : Chain) (twoWay : Bool) (value : T) (s : Solver W T) : Prop where
  /-- The solver holds the chain. -/
  hosted : chain.Hosted twoWay ∅ s
  /-- The links are enabled. -/
  enabled : ∀ k ∈ chain.links, s.Enabled k
  /-- All variables have the value. -/
  meets : s.Meets (chain.Guard fun _ x => x = value)

/-- Variables that are made in a new solver are a chain without links. -/
theorem ensures_newVariables_laid (twoWay : Bool) (n : Nat) (value : T) (w : W) :
    Ensures (newVariables (List.replicate n value)) ⟨.empty {}, w, []⟩ fun r m' =>
      ∀ vars, r = .ok vars → vars.length = n ∧ m'.solver.Sound True ∧
        Row ⟨vars, []⟩ twoWay ∅ m'.solver ∧
        (m'.solver.passes < 2 ^ 64 → Laid ⟨vars, []⟩ twoWay value m'.solver) := by
  have horderly : (Solver.empty {} : Solver W T).Orderly := Solver.orderly_empty {}
  refine ((SolveM.ensures_newVariables_made _ _).and
    ((SolveM.ensures_newVariables_aside horderly.toSound).and
    (forward_frame.newVariables (List.replicate n value) ⟨.empty {}, w, []⟩))).mono ?_
  rintro r m' ⟨⟨hconstraints, _, hmade⟩, ⟨hsound, haside⟩, hconfig, _⟩ vars rfl
  obtain ⟨hnodup, _, hvars⟩ := hmade vars rfl
  have hat : ∀ v ∈ vars, m'.solver.variableAt? v = some { cell := .assigned value } := by
    intro v hv
    have hmem := List.mem_map_of_mem (f := m'.solver.variableAt?) hv
    rw [hvars, List.map_replicate] at hmem
    exact List.eq_of_mem_replicate hmem
  have hcell : ∀ v ∈ vars, m'.solver.cellAt v = .assigned value := by
    intro v hv
    rw [Solver.cellAt, hat v hv]
    rfl
  have hnone : ∀ k, m'.solver.constraintAt? k = none := hconstraints
  have hrow : Row ⟨vars, []⟩ twoWay ∅ m'.solver :=
    ⟨hnodup, .nil, fun v hv => by rw [hat v hv]; rfl, (fun hi => by cases hi),
      fun hc => absurd hc (Finset.notMem_empty _), fun {k} hk => by rw [hnone k] at hk; cases hk⟩
  have hlength := congrArg List.length hvars
  rw [List.length_map, List.length_map, List.length_replicate] at hlength
  refine ⟨hlength, hsound, hrow, fun hlt => ⟨?_, fun k hk => absurd hk List.not_mem_nil,
    fun v hv => ⟨value, hcell v hv, rfl⟩⟩⟩
  exact ⟨horderly.aside hsound haside hconstraints hlt, hrow,
    fun c hc => absurd hc (Finset.notMem_empty c), by rw [hconfig]; rfl,
    fun v hv => ⟨value, hcell v hv, trivial⟩⟩

section Link

variable {v w : VarId} {d : Definition W T}

variable (hv : chain.vars[chain.links.length]? = some v)
  (hw : chain.vars[chain.links.length + 1]? = some w) (hd : d.Links twoWay v w)
include hv hw

/-- The two variables that are to be linked next are distinct. -/
theorem Row.ne_of_next (h : chain.Row twoWay pins m.solver) : v ≠ w := by
  rintro rfl
  have hi := idxOf_eq h.vars_nodup hv
  have hj := idxOf_eq h.vars_nodup hw
  omega

include hd

/-- The variables that are to be linked next exist. -/
theorem Row.live_of_link (h : chain.Row twoWay pins m.solver) :
    ∀ u ∈ d.vars, (m.solver.variableAt? u).isSome := by
  intro u hu
  rcases hd.mem_vars.1 hu with rfl | rfl
  · exact h.live _ (List.mem_of_getElem? hv)
  · exact h.live _ (List.mem_of_getElem? hw)

/-- If the next link can be made, it is part of the chain. -/
theorem Row.ensures_constrain (h : chain.Row twoWay pins m.solver) (hsound : m.solver.Sound True) :
    Ensures (SolveM.constrain fuel d) m fun r m' => ∀ c, r = .ok c →
      m'.solver.Sound True ∧ Row ⟨chain.vars, chain.links ++ [c]⟩ twoWay pins m'.solver := by
  refine .constrain hsound (h.live_of_link hv hw hd) (fun _ => nofun) fun c m₁ hs => ?_
  refine ((SolveM.enable_keeps fuel c m₁ hs.sound).and
    (SolveM.enable_obeys (SolveM.stands_frame c) fuel m₁)).mono ?_
  rintro r m₂ ⟨⟨h₂, _⟩, hstands⟩
  refine ⟨?_, fun _ _ _ _ _ => nofun⟩
  rintro rfl _ ⟨⟩
  exact ⟨h₂, (h.linked hs hv hw hd).stands hstands⟩

/-- Making the next link is stopped on forests only. -/
theorem Row.constrain_stopsOnForest (h : chain.Row twoWay pins m.solver)
    (hsound : m.solver.Sound True) : StopsOnForest (SolveM.constrain fuel d) m :=
  SolveM.constrain_stopsOnForest hsound (h.live_of_link hv hw hd) fun c _ hs =>
    (h.linked hs hv hw hd).forestWith c

/-- The next link is made. -/
theorem Laid.ensures_constrain (h : chain.Laid twoWay value m.solver) :
    Ensures (SolveM.constrain fuel d) m fun r m' => m'.solver.passes < 2 ^ 64 →
      ∃ c, r = .ok c ∧ Laid ⟨chain.vars, chain.links ++ [c]⟩ twoWay value m'.solver := by
  have hrow := h.hosted.row
  have hkeeps : ∀ method ∈ d.methods, method.Keeps (chain.Guard fun _ x => x = value) := by
    intro method hmethod
    rcases hd.method_cases hmethod with rfl | ⟨_, rfl⟩
    · exact copy_keeps_guard (List.mem_of_getElem? hv) fun _ => id
    · exact copy_keeps_guard (List.mem_of_getElem? hw) fun _ => id
  refine ((SolveM.ensures_constrain_orderly h.hosted.orderly ⟨h.hosted.tame passes_const, h.meets⟩
    (hrow.live_of_link hv hw hd) (by rw [hd.strength]; decide)
    (fun c m₁ hs => (hrow.linked hs hv hw hd).forestWith c) hkeeps).and
    (forward_frame.constrain fuel d m)).mono ?_
  rintro r m' ⟨hmade, hconfig, _⟩ hlt
  cases r with
  | error e =>
    -- a link can be refused only for want of room, and there are fewer links than variables
    obtain ⟨hfull, _⟩ := hmade hlt
    exact absurd hfull (Nat.ne_of_lt (hrow.size_lt (List.mem_of_getElem? hv)))
  | ok c =>
    obtain ⟨horderly, ⟨_, hmeets⟩, s₁, hs, ht⟩ := hmade hlt
    refine ⟨c, rfl, ⟨horderly, (hrow.linked hs hv hw hd).stands ht.stands, nofun,
      hconfig ▸ h.hosted.writeStrength, fun u hu => ?_⟩, fun k hk => (ht.enabled k).2 ?_, hmeets⟩
    · obtain ⟨x, hx, _⟩ := hmeets u hu
      exact ⟨x, hx, trivial⟩
    · rcases List.mem_append.1 hk with hk | hk
      · exact .inl ((hs.enabled_iff rfl).2 (h.enabled k hk))
      · exact .inr (List.mem_singleton.1 hk)

end Link

end Chain

/-! ## Making links -/

namespace SolveM

variable {W T : Type} {m : Machine W T} {ρ : Solver W T → Solver W T → Prop} {strength : Strength}
  {registrations : List (Registration W T)} {d : Definition W T} {fuel : Nat}

/-- A declaration is accepted or refused. -/
theorem total_declare (strength : Strength) (registrations : List (Registration W T)) :
    Total (declare strength registrations) := by
  unfold declare ofBuild
  exact .query _

/-- A declaration that is accepted gives its definition, and changes nothing. -/
theorem ensures_declare (h : Draft.define strength registrations = .ok d) :
    Ensures (declare strength registrations) m fun r m' => r = .ok d ∧ m' = m := by
  unfold declare ofBuild
  rw [ensures_query, h]
  exact ⟨rfl, rfl⟩

/-- Linking neighbours is a sequence of constraints that are made and enabled. -/
theorem CallFrame.linkNeighbours (hρ : CallFrame ρ) (fuel : Nat)
    (parts : VarId → VarId → List (Registration W T)) (vars : List VarId) :
    Obeys ρ (linkNeighbours fuel parts vars) := by
  have hT := hρ.toTransitive
  induction vars with
  | nil => exact .pure hT _
  | cons v vars ih =>
    cases vars with
    | nil => exact .pure hT _
    | cons w vars =>
      have hdeclare : Obeys ρ (declare .strong (parts v w)) := by
        unfold declare ofBuild
        exact .query hT _
      unfold SolveM.linkNeighbours
      refine .bind hT hdeclare fun d => ?_
      exact .bind hT (hρ.constrain fuel d) fun c => .bind hT ih fun links => .pure hT _

/-- Linking neighbours takes back no pass. -/
theorem linkNeighbours_forward {α : Type} (g : List ConstraintId → α)
    (parts : VarId → VarId → List (Registration W T)) (vars : List VarId) :
    Obeys Solver.Forward (do return g (← linkNeighbours fuel parts vars)) :=
  .bind Solver.Forward.transitive (forward_frame.linkNeighbours fuel parts vars) fun _ =>
    .pure Solver.Forward.transitive _

/-- Linking neighbours returns or goes round. -/
theorem linkNeighbours_concludes (parts : VarId → VarId → List (Registration W T))
    (vars : List VarId) : Concludes fun fuel => linkNeighbours fuel parts vars := by
  induction vars with
  | nil => exact .of_total (.pure _)
  | cons v vars ih =>
    cases vars with
    | nil => exact .of_total (.pure _)
    | cons w vars =>
      unfold linkNeighbours
      refine .bind (.of_total (total_declare _ _)) fun d => .bind (constrain_concludes d) fun c => ?_
      exact .bind ih fun links => .of_total (.pure _)

end SolveM

namespace Chain

open SolveM (Ensures Returns StopsOnForest linkNeighbours newVariables copyOf forward_frame)

variable {W T : Type} {m : Machine W T} {chain : Chain} {twoWay : Bool} {pins : Finset ConstraintId}
  {value : T} {v w : VarId} {rest : List VarId} {fuel : Nat}

/-- The methods of a link. -/
abbrev copies (twoWay : Bool) (prev curr : VarId) : List (Registration W T) :=
  copyOf curr prev :: if twoWay then [copyOf prev curr] else []

/-- What is to be linked next. -/
theorem next_of_drop (h : chain.vars.drop chain.links.length = v :: w :: rest) :
    chain.vars[chain.links.length]? = some v ∧ chain.vars[chain.links.length + 1]? = some w ∧
      ∀ c, chain.vars.drop (chain.links ++ [c]).length = w :: rest := by
  have htail : chain.vars.drop (chain.links.length + 1) = w :: rest := by
    rw [← List.tail_drop, h]
    rfl
  refine ⟨?_, ?_, fun c => ?_⟩
  · rw [← List.head?_drop, h]
    rfl
  · rw [← List.head?_drop, htail]
    rfl
  · rw [List.length_append, List.length_singleton, htail]

/-- The rest of the links of a chain are made one after the other. -/
theorem Laid.ensures_linkNeighbours (h : chain.Laid twoWay value m.solver)
    (hrest : chain.vars.drop chain.links.length = rest) :
    Ensures (linkNeighbours fuel (copies twoWay) rest) m fun r m' => m'.solver.passes < 2 ^ 64 →
      ∃ links, r = .ok links ∧ links.length = rest.length - 1 ∧
        Laid ⟨chain.vars, chain.links ++ links⟩ twoWay value m'.solver := by
  -- by induction on the variables that are left; the chain that is laid grows by one link
  induction rest generalizing chain m with
  | nil =>
    exact (SolveM.ensures_pure _).2 fun _ => ⟨[], rfl, rfl, (List.append_nil chain.links).symm ▸ h⟩
  | cons v rest ih =>
    cases rest with
    | nil =>
      exact (SolveM.ensures_pure _).2 fun _ =>
        ⟨[], rfl, rfl, (List.append_nil chain.links).symm ▸ h⟩
    | cons w rest =>
      obtain ⟨hv, hw, hdrop⟩ := next_of_drop hrest
      obtain ⟨d, hdefine, hd⟩ :=
        Draft.exists_define_links (W := W) (T := T) twoWay (h.hosted.row.ne_of_next hv hw)
      unfold linkNeighbours
      rw [SolveM.ensures_bind]
      refine (SolveM.ensures_declare hdefine).mono ?_
      rintro _ _ ⟨rfl, rfl⟩
      refine .bind_ok (fun c => SolveM.linkNeighbours_forward (c :: ·) _ _)
        ((h.ensures_constrain hv hw hd).mono fun r m₁ hlinked hlt => ?_)
      obtain ⟨c, rfl, h₁⟩ := hlinked hlt
      refine ⟨c, rfl, .bind_ok (fun _ => .pure Solver.Forward.transitive _)
        ((ih h₁ (hdrop c)).mono fun r m₂ hrest hlt => ?_)⟩
      obtain ⟨links, rfl, hlength, h₂⟩ := hrest hlt
      refine ⟨links, rfl, (SolveM.ensures_pure _).2 fun _ => ?_⟩
      refine ⟨c :: links, rfl, congrArg (· + 1) hlength, ?_⟩
      rwa [List.append_assoc] at h₂

/-- From variables without links the whole chain is made. -/
theorem Laid.ensures_links {vars : List VarId} (h : Laid ⟨vars, []⟩ twoWay value m.solver) :
    Ensures (do return Chain.mk vars (← linkNeighbours fuel (copies twoWay) vars)) m fun r m' =>
      m'.solver.passes < 2 ^ 64 → ∃ links, r = .ok ⟨vars, links⟩ ∧ links.length = vars.length - 1 ∧
        Laid ⟨vars, links⟩ twoWay value m'.solver := by
  have hrest : Ensures (linkNeighbours fuel (copies twoWay) vars) m _ :=
    h.ensures_linkNeighbours rfl
  refine .bind_ok (fun _ => .pure Solver.Forward.transitive _) (hrest.mono fun r m' hlinks hlt => ?_)
  obtain ⟨links, rfl, hlength, h'⟩ := hlinks hlt
  exact ⟨links, rfl, (SolveM.ensures_pure _).2 fun _ => ⟨links, rfl, hlength, h'⟩⟩

/-- Linking neighbours is stopped on forests only. -/
theorem Row.linkNeighbours_stopsOnForest (h : chain.Row twoWay pins m.solver)
    (hsound : m.solver.Sound True) (hrest : chain.vars.drop chain.links.length = rest) :
    StopsOnForest (linkNeighbours fuel (copies twoWay) rest) m := by
  -- by the same induction, with nothing said about values
  induction rest generalizing chain m with
  | nil => exact .of_total (.pure _)
  | cons v rest ih =>
    cases rest with
    | nil => exact .of_total (.pure _)
    | cons w rest =>
      obtain ⟨hv, hw, hdrop⟩ := next_of_drop hrest
      obtain ⟨d, hdefine, hd⟩ :=
        Draft.exists_define_links (W := W) (T := T) twoWay (h.ne_of_next hv hw)
      unfold linkNeighbours
      refine .after (SolveM.total_declare _ _) ((SolveM.ensures_declare hdefine).mono ?_)
      rintro _ _ ⟨rfl, rfl⟩
      refine .bind (h.constrain_stopsOnForest hv hw hd hsound)
        ((h.ensures_constrain hv hw hd hsound).mono fun r m₁ hlinked => ?_)
      cases r with
      | error e => trivial
      | ok c =>
        obtain ⟨hsound₁, h₁⟩ := hlinked c rfl
        refine .bind (ih h₁ hsound₁ (hdrop c)) fun r m₂ _ => ?_
        cases r with
        | error e => trivial
        | ok links => exact .of_total (.pure _)

/-- Make a chain of either kind. -/
def make (twoWay : Bool) (fuel len : Nat) (value : T) : SolveM W T Chain :=
  if twoWay then SolveM.twoWayChain fuel len value else SolveM.oneWayChain fuel len value

/-- Either kind of chain is made from variables and links. -/
theorem make_eq (twoWay : Bool) (fuel len : Nat) (value : T) :
    (make twoWay fuel len value : SolveM W T Chain) = do
      let vars ← newVariables (List.replicate len value)
      return ⟨vars, ← linkNeighbours fuel (copies twoWay) vars⟩ := by
  cases twoWay <;> rfl

/-- A chain that is made in a new solver has as many variables as it should, and links between all
neighbours. -/
theorem ensures_make (twoWay : Bool) (n : Nat) (value : T) (w : W) :
    Ensures (make twoWay fuel n value) ⟨.empty {}, w, []⟩ fun r m' =>
      m'.solver.passes < 2 ^ 64 → (n ≤ Arena.maxSlots → ∃ chain, r = .ok chain) ∧
        ∀ chain, r = .ok chain → chain.vars.length = n ∧ chain.links.length = n - 1 ∧
          chain.Laid twoWay value m'.solver := by
  rw [make_eq, SolveM.ensures_bind]
  have hroom : n ≤ Arena.maxSlots → Ensures (newVariables (List.replicate n value))
      (⟨.empty {}, w, []⟩ : Machine W T) fun r _ => ∃ vars, r = .ok vars := fun hn =>
    SolveM.ensures_newVariables_ok (by rw [List.length_replicate]; exact (Nat.zero_add n).trans_le hn)
  intro r m₁ hrun
  have hvars := ensures_newVariables_laid twoWay n value w r m₁ hrun
  cases r with
  | error e =>
    refine fun _ => ⟨fun hn => ?_, nofun⟩
    obtain ⟨_, ⟨⟩⟩ := hroom hn _ m₁ hrun
  | ok vars =>
    obtain ⟨rfl, _, _, hlaid⟩ := hvars vars rfl
    intro r m₂ hrest hlt
    have hle := (SolveM.linkNeighbours_forward (Chain.mk vars) _ _ m₁ r m₂ hrest).2
    have hlaid := hlaid (Nat.lt_of_le_of_lt hle hlt)
    obtain ⟨links, rfl, hlength, h₂⟩ := hlaid.ensures_links r m₂ hrest hlt
    refine ⟨fun _ => ⟨_, rfl⟩, ?_⟩
    rintro _ ⟨⟩
    exact ⟨rfl, hlength, h₂⟩

/-- A chain of every length for which there is room can be made. -/
theorem make_returns {n : Nat} (hn : n ≤ Arena.maxSlots) (value : T) (w : W) :
    Returns (fun fuel => make twoWay fuel n value) ⟨.empty {}, w, []⟩ fun r m' =>
      m'.solver.passes < 2 ^ 64 → ∃ chain, r = .ok chain := by
  have hconcludes : SolveM.Concludes (W := W) fun fuel => make twoWay fuel n value := by
    simp only [make_eq]
    refine .bind (.of_total (SolveM.total_newVariables _)) fun vars => ?_
    exact .bind (SolveM.linkNeighbours_concludes _ vars) fun links => .of_total (.pure _)
  refine (((hconcludes _).returns fun fuel => ?_).and_ensures fun fuel =>
    ensures_make twoWay n value w).mono fun r m' h hlt => (h.2 hlt).1 hn
  -- each link is made in a graph that is a forest with it
  rw [make_eq]
  refine .after (SolveM.total_newVariables _)
    ((ensures_newVariables_laid twoWay n value w).mono fun r m₁ hvars => ?_)
  cases r with
  | error e => trivial
  | ok vars =>
    obtain ⟨_, hsound, hrow, _⟩ := hvars vars rfl
    refine .bind (hrow.linkNeighbours_stopsOnForest hsound rfl) fun r m₂ _ => ?_
    cases r with
    | error e => trivial
    | ok links => exact .of_total (.pure _)

end Chain

end DeltaBlue
