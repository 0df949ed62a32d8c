import DeltaBlue.Proofs.Course
import DeltaBlue.Proofs.Detection
import DeltaBlue.Proofs.Directory
import DeltaBlue.Proofs.Price
import DeltaBlue.Proofs.Weight

/-!
# Chains of displacements

A pass enforces a constraint, then the one that it displaced, and so on; no counter ends this. What ends
it are the marks. The variables of a constraint that was enforced stay marked, its output included, and
the next output is chosen among the unmarked ones. So an enforced constraint keeps its output for the rest
of the pass (`Installation.Stands`), and cannot be displaced; each enforcement uses up a variable, and
there are no more enforcements than variables. That marks of an earlier pass may look like those of this
one does not matter here: they only leave fewer outputs to choose from.
-/

namespace DeltaBlue

open Relation

/-- A method put in force for a constraint, and the constraint that it displaced. -/
structure Installation (W T : Type) where
  /-- The constraint. -/
  constraint : ConstraintId
  /-- The method put in force. -/
  method : Method W T
  /-- The constraint that determined the output before. -/
  displaced : Option ConstraintId

namespace Solver

variable {W T : Type} {s s₁ s₂ : Solver W T} {mark : Mark} {c : ConstraintId} {node : Constraint W T}
  {i : Nat} {m : Method W T} {x : Variable T}

/-- An installation takes no claim back. -/
theorem Installed.claims (hi : Installed s s₁ mark c node i m x) : s.Claims mark s₁ := by
  intro v y' hy' hne
  rw [hi.variableAt] at hy'
  obtain ⟨y, hy, rfl⟩ := Option.map_eq_some_iff.1 hy'
  refine ⟨y, hy, fun hmark => hne ?_⟩
  dsimp only
  split
  · rfl
  · exact hmark

/-- Each enforcement leaves fewer variables unclaimed. -/
theorem Installed.unclaimed_lt (hi : Installed s s₁ mark c node i m x) (hr : s₁.Repaints s₂) :
    (s₂.modifyVariable m.output fun y => { y with mark := mark }).unclaimed mark <
      s.unclaimed mark :=
  ((Claims.transitive mark).trans hi.claims (hr.claims mark)).unclaimed_lt hi.output.1 hi.output.2.1

/-- No more variables are unclaimed than there are. -/
theorem unclaimed_le_size (s : Solver W T) (mark : Mark) : s.unclaimed mark ≤ s.vars.size := by
  have hsub : {v | ∃ y, s.variableAt? v = some y ∧ y.mark ≠ mark} ⊆
      (s.vars.keys.toFinset : Set VarId) := by
    rintro v ⟨y, hy, _⟩
    exact List.mem_toFinset.2 (Arena.mem_keys.2 (Option.isSome_iff_exists.2 ⟨y, hy⟩))
  -- the unclaimed variables are among the keys of the arena
  calc s.unclaimed mark ≤ (s.vars.keys.toFinset : Set VarId).ncard :=
        Set.ncard_le_ncard hsub (Finset.finite_toSet _)
    _ = s.vars.keys.toFinset.card := Set.ncard_coe_finset _
    _ ≤ s.vars.keys.length := List.toFinset_card_le _
    _ = s.vars.size := by rw [Arena.keys, List.length_map, Arena.length_toList]

end Solver

namespace Installation

open Solver

variable {W T : Type} {s s₁ s₂ : Solver W T} {mark : Mark} {c : ConstraintId} {node : Constraint W T}
  {i : Nat} {m : Method W T} {x : Variable T} {e : Installation W T}

/-- The constraint determines its output, and all variables of its method are claimed. -/
def Stands (e : Installation W T) (mark : Mark) (s : Solver W T) : Prop :=
  s.Determines e.constraint e.method.output ∧ ∀ v ∈ e.method.vars, s.Claimed mark v

/-- The second installation is for another constraint than the first, claims a variable that the first
neither claimed nor read, and does not displace the constraint of the first. -/
def Before (e e' : Installation W T) : Prop :=
  e'.constraint ≠ e.constraint ∧ e'.method.output ∉ e.method.vars ∧ e'.displaced ≠ some e.constraint

section

variable (h : s.WellFormed) (hi : Installed s s₁ mark c node i m x)
include hi

/-- A new output is none of the variables that are claimed. -/
theorem Stands.output_not_mem (he : e.Stands mark s) : m.output ∉ e.method.vars := by
  intro hmem
  obtain ⟨y, hy, hmark⟩ := he.2 _ hmem
  obtain rfl := Option.some.inj (hi.output.1.symm.trans hy)
  exact hi.output.2.1 hmark

/-- What stands is not what is enforced next. -/
theorem Stands.constraint_ne (he : e.Stands mark s) : c ≠ e.constraint := by
  rintro rfl
  exact not_determines hi.before.1 hi.before.2.2 _ he.1

include h

/-- What stands is not displaced. -/
theorem Stands.not_displaced (he : e.Stands mark s) : x.determinedBy ≠ some e.constraint := by
  intro hdisplaced
  have hdet : s.Determines e.constraint m.output := (h.determined hi.output.1 _).1 hdisplaced
  have hout : m.output = e.method.output := hdet.unique he.1
  exact he.output_not_mem hi (hout ▸ List.mem_cons_self)

/-- What stands goes on standing. -/
theorem Stands.kept (he : e.Stands mark s) (hr : s₁.Repaints s₂) :
    e.Stands mark (s₂.modifyVariable m.output fun y => { y with mark := mark }) := by
  -- none of the variables of the method is the new output
  have hne : ∀ v ∈ e.method.vars, v ≠ m.output := fun v hv hvo =>
    he.output_not_mem hi (hvo ▸ hv)
  refine ⟨?_, fun v hv => ?_⟩
  · have hdet : s₂.Determines e.constraint e.method.output := by
      rw [hr.determines, hi.determines_iff h, if_neg (hne _ List.mem_cons_self)]
      exact he.1
    exact hdet
  · have hclaimed : s₂.Claimed mark v :=
      hr.claimed.2 ((hi.claimed_iff h).2 ⟨hne v hv, .inl (he.2 v hv)⟩)
    obtain ⟨y, hy, hmark⟩ := hclaimed
    exact claimed_marked.2 ⟨by rw [hy]; rfl, .inr ⟨y, hy, hmark⟩⟩

omit e in
/-- What is installed stands when the pass goes on. -/
theorem stands_of_installed (hr : s₁.Repaints s₂) (displaced : Option ConstraintId) :
    Stands ⟨c, m, displaced⟩ mark (s₂.modifyVariable m.output fun y => { y with mark := mark }) := by
  refine ⟨?_, fun v hv => ?_⟩
  · have hdet : s₂.Determines c m.output := hr.determines.2 hi.determines
    exact hdet
  · have hmem : v ∈ node.definition.vars :=
      (Definition.mem_vars_iff (Definition.mem_of_method? hi.method)).2 (List.mem_cons.1 hv)
    have hlive : (s₂.variableAt? v).isSome := by
      rw [hr.live, hi.variableAt, Option.isSome_map]
      exact h.mentioned hi.before.1 v hmem
    by_cases hvo : v = m.output
    · exact claimed_marked.2 ⟨hlive, .inl hvo⟩
    · exact claimed_marked.2 ⟨hlive, .inr (hr.claimed.2 ((hi.claimed_iff h).2 ⟨hvo, .inr hmem⟩))⟩

end

end Installation

namespace SolveM

open Solver

variable {W T : Type} {m m' m₁ : Machine W T} {mark : Mark} {c k : ConstraintId} {fuel : Nat}
  {e : Installation W T} {es : List (Installation W T)}
  {remove : ConstraintId → SolveM W T Unit}

/-- Installing a method for the constraint comes to the installation. -/
def Installs (mark : Mark) (m : Machine W T) (e : Installation W T) (m' : Machine W T) : Prop :=
  exec (install mark e.constraint) m = some (.ok (some (e.method.output, e.displaced)), m') ∧
    ∃ node, m'.solver.constraintAt? e.constraint = some node ∧
      node.enforcingMethod? = some e.method

/-- The methods that are installed, in order, when a constraint is enforced in a pass and then whatever is
displaced, up to some moment. -/
inductive Cascade (remove : ConstraintId → SolveM W T Unit) (fuel : Nat) (mark : Mark) :
    ConstraintId → Machine W T → List (Installation W T) → Prop
  /-- Nothing has been installed yet. -/
  | start {c : ConstraintId} {m : Machine W T} : Cascade remove fuel mark c m []
  /-- A method has been installed last. -/
  | last {e : Installation W T} {m m' : Machine W T} (hinstall : Installs mark m e m') :
    Cascade remove fuel mark e.constraint m [e]
  /-- A method has been installed, and enforcing has gone on to the next constraint. -/
  | next {e : Installation W T} {es : List (Installation W T)} {k : ConstraintId}
    {m m₁ m' : Machine W T} (hinstall : Installs mark m e m₁)
    (henforce : exec (enforce remove fuel mark e.constraint) m = some (.ok (some k), m'))
    (hrest : Cascade remove fuel mark k m' es) : Cascade remove fuel mark e.constraint m (e :: es)

/-- An installation takes an output that the constraint is stronger than, and displaces what
determined it. -/
theorem Installs.installed (hinstall : Installs mark m e m') (h : m.solver.WellFormed)
    (hidle : m.solver.Idle e.constraint) :
    ∃ node i x, m.solver.Installed m'.solver mark e.constraint node i e.method x ∧
      x.determinedBy = e.displaced := by
  obtain ⟨hrun, n, hn, hmethod⟩ := hinstall
  obtain ⟨node, i, x, method, hi, -, hdisplaced, -⟩ := installed_of_exec h hidle hrun
  obtain rfl := Option.some.inj (hi.constraintAt_self.symm.trans hn)
  obtain rfl : method = e.method := Option.some.inj (hi.method.symm.trans hmethod)
  exact ⟨node, i, x, hi, hdisplaced⟩

/-- When enforcing goes on to a constraint, a method has been installed that displaced it, everything
downstream has been recalculated, and the output is claimed. -/
theorem exec_enforce_eq_some (hrun : exec (enforce remove fuel mark c) m = some (.ok (some k), m')) :
    ∃ (o : VarId) (m₁ m₂ : Machine W T), exec (install mark c) m = some (.ok (some (o, some k)), m₁) ∧
      m₁.solver.Repaints m₂.solver ∧
      m'.solver = m₂.solver.modifyVariable o fun x => { x with mark := mark } := by
  unfold enforce at hrun
  obtain ⟨installed, m₁, hinstall, hrun⟩ := exec_bind_eq_ok.1 hrun
  cases installed with
  | none => cases hrun
  | some p =>
    obtain ⟨o, displaced⟩ := p
    obtain ⟨closed, m₂, hsweep, hrun⟩ := exec_bind_eq_ok.1 hrun
    cases closed with
    | some q =>
      -- a broken cycle ends in an error
      obtain ⟨_, _, _, hrun⟩ := exec_bind_eq_ok.1 hrun
      obtain ⟨_, _, _, hrun⟩ := exec_bind_eq_ok.1 hrun
      obtain ⟨_, _, _, hrun⟩ := exec_bind_eq_ok.1 hrun
      obtain ⟨_, _, _, hrun⟩ := exec_bind_eq_ok.1 hrun
      cases hrun
    | none =>
      have hset : Ensures (changeVariable o fun x => { x with mark := mark }) m₂ fun r m₃ =>
          r = .ok () → m₃.solver = m₂.solver.modifyVariable o fun x => { x with mark := mark } := by
        rw [ensures_changeVariable]
        cases m₂.solver.variableAt? o with
        | none => exact nofun
        | some y => exact fun _ => rfl
      -- nothing is left but to claim the output and to hand on the displaced constraint
      obtain ⟨_, m₃, hmark, hrun⟩ := exec_bind_eq_ok.1 hrun
      obtain ⟨hdisplaced, hm⟩ := Prod.mk.inj (Option.some.inj hrun)
      obtain rfl := Except.ok.inj hdisplaced
      subst hm
      exact ⟨o, m₁, m₂, hinstall, sweep_repaints mark fuel _ m₁ _ m₂ hsweep, hset _ _ hmark rfl⟩

/-- What an installation does not touch: an installation that stands comes before it. -/
theorem Installs.before {d : Installation W T} (hinstall : Installs mark m e m')
    (h : m.solver.WellFormed) (hidle : m.solver.Idle e.constraint) (hd : d.Stands mark m.solver) :
    d.Before e := by
  obtain ⟨node, i, x, hi, hdisplaced⟩ := hinstall.installed h hidle
  exact ⟨hd.constraint_ne hi, hd.output_not_mem hi, hdisplaced ▸ hd.not_displaced h hi⟩

/-- A constraint does not displace itself. -/
theorem Installs.displaced_ne (hinstall : Installs mark m e m') (h : m.solver.WellFormed)
    (hidle : m.solver.Idle e.constraint) : e.displaced ≠ some e.constraint := by
  obtain ⟨node, i, x, hi, hdisplaced⟩ := hinstall.installed h hidle
  rw [← hdisplaced]
  intro hself
  have hdet : m.solver.Determines e.constraint e.method.output :=
    (h.determined hi.output.1 _).1 hself
  exact not_determines hi.before.1 hi.before.2.2 _ hdet

/-- Where enforcing goes on to another constraint, there are fewer unclaimed variables. -/
theorem enforce_unclaimed_lt (h : m.solver.WellFormed) (hidle : m.solver.Idle c)
    (henforce : exec (enforce remove fuel mark c) m = some (.ok (some k), m')) :
    m'.solver.WellFormed ∧ m'.solver.Idle k ∧ m'.solver.unclaimed mark < m.solver.unclaimed mark := by
  obtain ⟨o, m₁, m₂, hinstall, hr, hm'⟩ := exec_enforce_eq_some henforce
  obtain ⟨node, i, x, method, hi, rfl, hdisplaced, -⟩ := installed_of_exec h hidle hinstall
  obtain ⟨n, hn, hon⟩ := hi.displaced_idle h hdisplaced
  rw [hm']
  exact ⟨((h.installed hi).repaints hr).marked _ _, ⟨n, (hr.constraintAt k).trans hn, hon⟩,
    hi.unclaimed_lt hr⟩

/-- Where enforcing goes on to another constraint, it is the displaced one, and what was installed in the
pass stands, the last installation included. -/
theorem Installs.stands (hinstall : Installs mark m e m₁) (h : m.solver.WellFormed)
    (hidle : m.solver.Idle e.constraint)
    (henforce : exec (enforce remove fuel mark e.constraint) m = some (.ok (some k), m')) :
    e.displaced = some k ∧ e.Stands mark m'.solver ∧
      ∀ d : Installation W T, d.Stands mark m.solver → d.Stands mark m'.solver := by
  obtain ⟨node, i, x, hi, hdisplaced⟩ := hinstall.installed h hidle
  obtain ⟨o, m₂, m₃, hinstall', hr, hm'⟩ := exec_enforce_eq_some henforce
  obtain ⟨hsame, rfl⟩ := Prod.mk.inj (Option.some.inj (hinstall.1.symm.trans hinstall'))
  obtain ⟨rfl, hnext⟩ := Prod.mk.inj (Option.some.inj (Except.ok.inj hsame))
  rw [hm']
  exact ⟨hnext, Installation.stands_of_installed h hi hr _, fun d hd => hd.kept h hi hr⟩

/-- Wherever enforcing goes on to another constraint, a method has been installed, so that the cascade
from there is part of one. -/
theorem Cascade.cons_of_enforce (h : m.solver.WellFormed) (hidle : m.solver.Idle c)
    (henforce : exec (enforce remove fuel mark c) m = some (.ok (some k), m'))
    (hc : Cascade remove fuel mark k m' es) :
    ∃ e, e.constraint = c ∧ Cascade remove fuel mark c m (e :: es) := by
  obtain ⟨o, m₁, -, hinstall, -, -⟩ := exec_enforce_eq_some henforce
  obtain ⟨node, i, x, method, hi, rfl, -, -⟩ := installed_of_exec h hidle hinstall
  have hforce : Constraint.enforcingMethod? { node with enforcing := some i } = some method := hi.method
  have hinstalls : Installs mark m ⟨c, method, some k⟩ m₁ :=
    ⟨hinstall, _, hi.constraintAt_self, hforce⟩
  exact ⟨_, rfl, .next hinstalls henforce hc⟩

/-- What stands when a cascade begins comes before all of it. -/
theorem Cascade.before {d : Installation W T} (hc : Cascade remove fuel mark c m es)
    (h : m.solver.WellFormed) (hidle : m.solver.Idle c) (hd : d.Stands mark m.solver) :
    ∀ e ∈ es, d.Before e := by
  -- along the cascade: what stands goes on standing, so it comes before each installation in turn
  induction hc with
  | start => exact nofun
  | last hinstall =>
    rintro e (_ | ⟨_, ⟨⟩⟩)
    exact hinstall.before h hidle hd
  | next hinstall henforce _ ih =>
    obtain ⟨h', hidle', -⟩ := enforce_unclaimed_lt h hidle henforce
    obtain ⟨-, -, hkept⟩ := hinstall.stands h hidle henforce
    rintro e (_ | ⟨_, he⟩)
    · exact hinstall.before h hidle hd
    · exact ih h' hidle' (hkept d hd) e he

/-- Of any two installations of a cascade the earlier one comes before the later one. -/
theorem Cascade.pairwise (hc : Cascade remove fuel mark c m es) (h : m.solver.WellFormed)
    (hidle : m.solver.Idle c) : es.Pairwise Installation.Before := by
  induction hc with
  | start => exact .nil
  | last _ => exact List.pairwise_singleton _ _
  | next hinstall henforce hrest ih =>
    obtain ⟨h', hidle', -⟩ := enforce_unclaimed_lt h hidle henforce
    -- the installation stands when the rest of the cascade begins
    obtain ⟨-, hstands, -⟩ := hinstall.stands h hidle henforce
    exact .cons (hrest.before h' hidle' hstands) (ih h' hidle')

/-- Each constraint of a cascade but the first is the one that was displaced last, and none displaces
itself. -/
theorem Cascade.linked (hc : Cascade remove fuel mark c m es) (h : m.solver.WellFormed)
    (hidle : m.solver.Idle c) :
    (∀ e ∈ es.head?, e.constraint = c) ∧
      es.IsChain (fun e e' => e.displaced = some e'.constraint) ∧
      ∀ e ∈ es, e.displaced ≠ some e.constraint := by
  induction hc with
  | start => exact ⟨nofun, .nil, nofun⟩
  | last hinstall =>
    refine ⟨by simp, .singleton _, ?_⟩
    rintro e (_ | ⟨_, ⟨⟩⟩)
    exact hinstall.displaced_ne h hidle
  | next hinstall henforce _ ih =>
    obtain ⟨h', hidle', -⟩ := enforce_unclaimed_lt h hidle henforce
    obtain ⟨hnext, -, -⟩ := hinstall.stands h hidle henforce
    obtain ⟨hhead, hchain, hne⟩ := ih h' hidle'
    refine ⟨by simp, List.isChain_cons.2 ⟨fun e he => hnext.trans ?_, hchain⟩, ?_⟩
    · rw [hhead e he]
    · rintro e (_ | ⟨_, he⟩)
      · exact hinstall.displaced_ne h hidle
      · exact hne e he

/-- A cascade is no longer than there are unclaimed variables. -/
theorem Cascade.length_le (hc : Cascade remove fuel mark c m es) (h : m.solver.WellFormed)
    (hidle : m.solver.Idle c) : es.length ≤ m.solver.unclaimed mark := by
  induction hc with
  | start => exact Nat.zero_le _
  | last hinstall =>
    obtain ⟨node, i, x, hi, -⟩ := hinstall.installed h hidle
    exact Nat.zero_lt_of_lt (hi.unclaimed_lt (Repaints.transitive.refl _))
  | next hinstall henforce _ ih =>
    obtain ⟨h', hidle', hlt⟩ := enforce_unclaimed_lt h hidle henforce
    exact Nat.lt_of_le_of_lt (ih h' hidle') hlt

/-- With more steps than there are unclaimed variables the loop does not run out of steps. -/
theorem displace_steady {steps steps' : Nat} (h : m.solver.WellFormed) (hidle : m.solver.Idle c)
    (hlt : m.solver.unclaimed mark < steps) (hle : steps ≤ steps') :
    exec (displace remove fuel mark steps' c) m = exec (displace remove fuel mark steps c) m := by
  -- on the number of steps: each one leaves fewer variables unclaimed
  induction steps generalizing m c steps' with
  | zero => exact absurd hlt (Nat.not_lt_zero _)
  | succ steps ih =>
    obtain ⟨more, rfl⟩ := Nat.exists_eq_add_of_le' (Nat.le_trans (Nat.le_add_left 1 steps) hle)
    unfold displace
    rw [exec_bind, exec_bind]
    cases henforce : exec (enforce remove fuel mark c) m with
    | none => rfl
    | some p =>
      obtain ⟨r, m'⟩ := p
      rcases r with e | _ | k
      · rfl
      · rfl
      · obtain ⟨h', hidle', hfewer⟩ := enforce_unclaimed_lt h hidle henforce
        exact ih h' hidle' (by omega) (by omega)

end SolveM

namespace Run

open SolveM (exec Makes Cascade)

variable {W T : Type} {own : Prop} {config : Config} {plans : List (Plan × Nat)}
  {m : Machine W T}

/-- Whenever a constraint is added in the course of a call, the methods that are installed in its pass form
a chain: each is installed for the constraint that was displaced last. No constraint occurs twice, every
output is a variable that no method installed earlier in the pass claimed or read, and no constraint for
which a method was installed is displaced again. So there are at most as many installations as there are
variables, and the loop ends by itself: with any larger number of steps it comes to the same. -/
theorem cascade_bounded (h : Run own config plans m) {call : Call W T} {fuel fuel' : Nat}
    {c : ConstraintId} {mark : Mark} {m₁ m₂ : Machine W T}
    (hmade : ReflTransGen Makes ⟨fuel, .call call, m⟩ ⟨fuel' + 1, .add c, m₁⟩)
    (hpass : exec SolveM.nextMark m₁ = some (.ok mark, m₂)) :
    (∀ es : List (Installation W T), Cascade (SolveM.remove fuel') fuel' mark c m₂ es →
      (∀ e ∈ es.head?, e.constraint = c) ∧
      es.IsChain (fun e e' => e.displaced = some e'.constraint) ∧
      (es.map (·.constraint)).Nodup ∧
      es.Pairwise (fun e e' => e'.method.output ≠ e.method.output ∧
        e'.method.output ∉ e.method.inputs ∧ e'.displaced ≠ some e.constraint) ∧
      (∀ e ∈ es, e.displaced ≠ some e.constraint) ∧
      es.length ≤ m₁.solver.vars.size) ∧
    ∀ steps, m₁.solver.vars.size < steps →
      exec (SolveM.displace (SolveM.remove fuel') fuel' mark steps c) m₂ =
        exec (SolveM.displace (SolveM.remove fuel') fuel' mark (m₁.solver.vars.size + 1) c) m₂ := by
  obtain ⟨hsound, hidle⟩ := h.admits hmade
  obtain ⟨hsound₂, hidle₂, -⟩ := SolveM.ensures_nextMark hsound hidle _ _ hpass mark rfl
  have h₂ := hsound₂.toWellFormed
  have hsize : m₂.solver.unclaimed mark ≤ m₁.solver.vars.size := by
    obtain ⟨_, rfl⟩ := Prod.mk.inj (Option.some.inj hpass)
    exact Solver.unclaimed_le_size _ mark
  refine ⟨fun es hes => ?_, fun steps hsteps => ?_⟩
  · obtain ⟨hhead, hchain, hself⟩ := hes.linked h₂ hidle₂
    have hbefore := hes.pairwise h₂ hidle₂
    refine ⟨hhead, hchain, List.pairwise_map.2 (hbefore.imp fun hb => hb.1.symm), hbefore.imp ?_,
      hself, (hes.length_le h₂ hidle₂).trans hsize⟩
    rintro e e' ⟨-, hnew, hkept⟩
    exact ⟨List.ne_of_not_mem_cons hnew, List.not_mem_of_not_mem_cons hnew, hkept⟩
  · exact SolveM.displace_steady h₂ hidle₂ (Nat.lt_succ_of_le hsize) hsteps

/-- When the third variable of the chain is taken, a method is installed for the edit and for each of the
two relations, as many as there are variables. -/
theorem cascade_bounded_heldWeakly : ∃ (m m₁ m₂ : Machine Unit Nat) (mark : Mark)
    (es : List (Installation Unit Nat)),
    Call.runAll 9 heldWeakly ⟨.empty {}, (), []⟩ = some m ∧
    ReflTransGen Makes ⟨9, .call (.enable ⟨3, 0⟩), m⟩ ⟨9, .add ⟨3, 0⟩, m₁⟩ ∧
    exec SolveM.nextMark m₁ = some (.ok mark, m₂) ∧
    Cascade (SolveM.remove 8) 8 mark ⟨3, 0⟩ m₂ es ∧
    es.map (·.constraint) = [⟨3, 0⟩, ⟨2, 0⟩, ⟨1, 0⟩] ∧ m₁.solver.vars.size = 3 ∧
    es.length ≤ m₁.solver.vars.size := by
  have hany : (Call.runAll 9 heldWeakly ⟨.empty {}, (), []⟩).any (fun m =>
      ((m.solver.constraintAt? ⟨3, 0⟩).any fun node => node.enabled = false) ∧
      (exec (SolveM.enter ⟨3, 0⟩) m).any fun entered => entered.1.toOption = some () ∧
        entered.2.solver.vars.size = 3 ∧
        (exec SolveM.nextMark entered.2).any fun pass => pass.1.toOption.any fun mark =>
          (exec (SolveM.enforce (SolveM.remove 8) 8 mark ⟨3, 0⟩) pass.2).any fun first =>
            first.1.toOption = some (some ⟨2, 0⟩) ∧
            (exec (SolveM.enforce (SolveM.remove 8) 8 mark ⟨2, 0⟩) first.2).any fun second =>
              second.1.toOption = some (some ⟨1, 0⟩) ∧
              (exec (SolveM.enforce (SolveM.remove 8) 8 mark ⟨1, 0⟩) second.2).any fun third =>
                third.1.toOption = some (some ⟨0, 0⟩)) = true := by
    decide +kernel
  simp only [Option.any_eq_true, decide_eq_true_eq, Prod.exists] at hany
  obtain ⟨m, hm, ⟨node, hnode, hoff⟩, _, m₁, henter, hentered, hsize, _, m₂, hpass, mark, hmark,
    _, m₃, hfirst, hr₁, _, m₄, hsecond, hr₂, _, m₅, hthird, hr₃⟩ := hany
  obtain rfl := SolveM.eq_ok_of_toOption hentered
  obtain rfl := SolveM.eq_ok_of_toOption hmark
  obtain rfl := SolveM.eq_ok_of_toOption hr₁
  obtain rfl := SolveM.eq_ok_of_toOption hr₂
  obtain rfl := SolveM.eq_ok_of_toOption hr₃
  have hstart : Run False {} [] (⟨.empty {}, (), []⟩ : Machine Unit Nat) := .start ()
  obtain ⟨plans, h⟩ := runAll hstart (by decide) hm
  have hmade : ReflTransGen Makes ⟨9, .call (.enable ⟨3, 0⟩), m⟩ ⟨9, .add ⟨3, 0⟩, m₁⟩ :=
    .tail (.tail (.single .callEnable) (.settle hnode hoff henter)) .settleAdd
  obtain ⟨hsound, hidle⟩ := h.admits hmade
  obtain ⟨hsound₂, hidle₂, -⟩ := SolveM.ensures_nextMark hsound hidle _ _ hpass mark rfl
  obtain ⟨h₃, hidle₃, -⟩ := SolveM.enforce_unclaimed_lt hsound₂.toWellFormed hidle₂ hfirst
  obtain ⟨h₄, hidle₄, -⟩ := SolveM.enforce_unclaimed_lt h₃ hidle₃ hsecond
  obtain ⟨e₃, he₃, hc₃⟩ := Cascade.cons_of_enforce h₄ hidle₄ hthird .start
  obtain ⟨e₂, he₂, hc₂⟩ := hc₃.cons_of_enforce h₃ hidle₃ hsecond
  obtain ⟨e₁, he₁, hc₁⟩ := hc₂.cons_of_enforce hsound₂.toWellFormed hidle₂ hfirst
  refine ⟨m, m₁, m₂, mark, _, hm, hmade, hpass, hc₁, ?_, hsize, ?_⟩
  · rw [List.map_cons, List.map_cons, List.map_cons, he₁, he₂, he₃, List.map_nil]
  · exact ((cascade_bounded h hmade hpass).1 _ hc₁).2.2.2.2.2

end Run

end DeltaBlue
