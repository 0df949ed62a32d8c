import DeltaBlue.Network.Chain
import DeltaBlue.Proofs.Orderly
import DeltaBlue.Proofs.Recompute

/-!
# Rows

The variables and links of a chain form a row: each link relates two neighbours. Besides the links there
may be pins, constraints on a single variable of the row that keep it or hold it at a constant. Such a
graph is a forest, whatever is enabled, since each variable and each link has at most one neighbour
before it; and no value in it is volatile.

So if a row is orderly, enabled links are all in force. For the links can be given distinct outputs: each
determines the later one of its variables. In a two-way chain one strong pin does not change this, as
the links before it can determine the earlier one of theirs. The variables of a link in force have the
same value.
-/

namespace DeltaBlue

/-! ## Copies -/

namespace Method

variable {W T : Type} {P : VarId → Cell T → Prop} {input output v : VarId} {value : T}

/-- The method that makes `output` a copy of `input`. -/
def copy (output input : VarId) : Method W T := .compute output [input] (.fixed 1 .first)

/-- A copy keeps a condition that it takes from its input. -/
theorem copy_keeps (hassigned : ∀ cell, P input cell → ∃ x, cell = .assigned x)
    (hcopy : ∀ x, P input (.assigned x) → P output (.assigned x)) :
    (copy output input : Method W T).Keeps P := by
  intro cell w hP
  obtain ⟨x, hx⟩ := hassigned _ (hP input)
  change P output ((runOn _ (valuesFrom cell [input]) w).1.store _)
  rw [valuesFrom, hx]
  exact hcopy x (hx ▸ hP input)

/-- What a copy yields is the value of its input. -/
theorem eq_of_yields_copy {cell : VarId → Cell T} (hx : cell input = .assigned value)
    (h : (copy output input : Method W T).Yields (valuesFrom cell [input]) (cell output)) :
    cell output = .assigned value := by
  rw [valuesFrom, hx] at h
  obtain ⟨w, hcell⟩ := h
  exact hcell

/-- A stay changes no cell. -/
theorem stay_keeps : (stay v : Method W T).Keeps P := fun _ _ hP => hP v

/-- An edit keeps what holds of its value. -/
theorem edit_keeps (h : P v (.assigned value)) : (edit v value : Method W T).Keeps P := by
  intro cell w _
  rw [store_edit rfl]
  exact h

end Method

namespace Definition

variable {W T : Type} {d : Definition W T} {twoWay : Bool} {u v w : VarId} {m : Method W T}

/-- The constraint between two neighbours: the second is a copy of the first or, if the chain is two-way,
the first one of the second. -/
structure Links (twoWay : Bool) (v w : VarId) (d : Definition W T) : Prop where
  /-- The methods. -/
  methods : d.methods = .copy w v :: if twoWay then [.copy v w] else []
  /-- The strength. -/
  strength : d.strength = .strong
  /-- The copies are not volatile. -/
  volatile : d.volatile = false

/-- A link has a method that determines the second variable. -/
theorem Links.copy_mem (h : d.Links twoWay v w) : .copy w v ∈ d.methods := by
  rw [h.methods]
  exact List.mem_cons_self

/-- A two-way link has one that determines the first variable as well. -/
theorem Links.copy_back_mem (h : d.Links true v w) : .copy v w ∈ d.methods := by
  rw [h.methods]
  exact List.mem_cons_of_mem _ List.mem_cons_self

/-- A link has no other methods. -/
theorem Links.method_cases (h : d.Links twoWay v w) (hm : m ∈ d.methods) :
    m = .copy w v ∨ twoWay = true ∧ m = .copy v w := by
  rw [h.methods] at hm
  rcases List.mem_cons.1 hm with rfl | hm
  · exact .inl rfl
  · cases twoWay with
    | false => cases hm
    | true => exact .inr ⟨rfl, List.mem_singleton.1 hm⟩

/-- A link mentions its two variables. -/
theorem Links.mem_vars (h : d.Links twoWay v w) : u ∈ d.vars ↔ u = v ∨ u = w := by
  rw [mem_vars_iff h.copy_mem]
  exact or_comm.trans (or_congr_left List.mem_singleton)

/-- The constraint keeps one variable or holds it at a constant. -/
def Pins (v : VarId) (d : Definition W T) : Prop :=
  (∃ a, d = stay a v) ∨ ∃ a label value, d = edit a label v value

/-- A stay is not an edit. -/
theorem stay_ne_edit {a b : Strength} {label : Option String} {value : T} :
    (stay a v : Definition W T) ≠ edit b label w value := by
  intro he
  have hmethods := congrArg methods he
  cases congrArg Method.action (List.cons.inj hmethods).1

/-- A pin determines its variable and reads none. -/
theorem Pins.output (h : d.Pins v) : ∃ m ∈ d.methods, m.output = v ∧ m.inputs = [] := by
  obtain ⟨a, rfl⟩ | ⟨a, label, value, rfl⟩ := h <;> exact ⟨_, List.mem_cons_self, rfl, rfl⟩

/-- A pin mentions its variable only. -/
theorem Pins.mem_vars (h : d.Pins v) : u ∈ d.vars ↔ u = v := by
  obtain ⟨m, hm, rfl, hinputs⟩ := h.output
  rw [mem_vars_iff hm, hinputs]
  exact or_iff_left List.not_mem_nil

/-- A pin is not volatile. -/
theorem Pins.volatile (h : d.Pins v) : d.volatile = false := by
  obtain ⟨a, rfl⟩ | ⟨a, label, value, rfl⟩ := h <;> rfl

end Definition

/-! ## Values and methods of orderly graphs -/

namespace Solver

variable {W T : Type} {s : Solver W T} {cells : Prop} {c : ConstraintId} {node : Constraint W T}

/-- Without volatile constraints every variable is constant. -/
theorem Rest.constantAt_of_nonvolatile (hrest : s.Rest cells) (h : s.WellFormed)
    (hvolatile : ∀ c node, s.constraintAt? c = some node → node.definition.volatile = false)
    (v : VarId) : s.constantAt v = true := by
  -- by induction along the methods in force; what changes has a cause that changes
  induction v using (hrest.acyclic.wellFounded_feeds h).induction with
  | _ v ih =>
    by_contra hchanges
    have hchanges : s.constantAt v = false := by simpa using hchanges
    obtain ⟨c, _, _, _, hdet⟩ := hrest.determines_of_changeable h hchanges
    rcases hrest.cause_of_changeable h hdet hchanges with hsource | ⟨u, hreads, hu⟩
    · unfold isVolatileSource at hsource
      simp only [Option.any_eq_true, Bool.and_eq_true] at hsource
      obtain ⟨node, hnode, ⟨_, hsource⟩, _⟩ := hsource
      cases (hvolatile c node hnode).symm.trans hsource
    · cases (ih u ⟨c, hreads⟩).symm.trans hu

/-- A constraint that is enforcing has a method of its definition in force. -/
theorem WellFormed.exists_method (h : s.WellFormed) (hnode : s.constraintAt? c = some node)
    (henf : node.isEnforcing = true) :
    ∃ method ∈ node.definition.methods, node.enforcingMethod? = some method := by
  obtain ⟨o, hout⟩ := h.exists_output hnode henf
  obtain ⟨method, hmethod, _⟩ := Option.map_eq_some_iff.1 hout
  obtain ⟨i, _, hi⟩ := Option.bind_eq_some_iff.1 hmethod
  exact ⟨method, Definition.mem_of_method? hi, hmethod⟩

/-- The enabled constraints that insist on the given strength at least. -/
def Insisting (s : Solver W T) (a : Strength) : Set ConstraintId :=
  {c | ∃ node, s.constraintAt? c = some node ∧ node.enabled = true ∧ a ≤ node.definition.strength}

/-- Constraints with a method in force are enabled. -/
theorem WellFormed.enforced_subset (h : s.WellFormed) (a : Strength) :
    s.Enforced a ⊆ s.Insisting a := by
  rintro c ⟨node, hnode, henf, hle⟩
  obtain ⟨i, hi⟩ := Option.isSome_iff_exists.1 henf
  exact ⟨node, hnode, (h.enforcing hnode hi).1, hle⟩

/-- If they can be given distinct outputs, all of them have a method in force. -/
theorem Orderly.enforced_eq {a : Strength} (h : s.Orderly) (ha : a ≠ .weakest) (f : ConstraintId → VarId)
    (hinj : Set.InjOn f (s.Insisting a)) (hout : ∀ c node, s.constraintAt? c = some node →
      c ∈ s.Insisting a → ∃ method ∈ node.definition.methods, method.output = f c) :
    s.Enforced a = s.Insisting a := by
  have hfinite : (s.Insisting a).Finite := by
    refine s.finite_constraints.subset ?_
    rintro c ⟨node, hnode, _⟩
    exact Option.isSome_iff_exists.2 ⟨node, hnode⟩
  have hassignable : s.Assignable a hfinite.toFinset := by
    refine ⟨f, by rwa [hfinite.coe_toFinset], fun c hc => ?_⟩
    have hmem := hfinite.mem_toFinset.1 hc
    obtain ⟨node, hnode, hen, hle⟩ := id hmem
    exact ⟨node, hnode, hen, hle, hout c node hnode hmem⟩
  -- an orderly graph enforces as many as can be given distinct outputs, and these are all
  refine Set.eq_of_subset_of_ncard_le (h.enforced_subset a) ?_ hfinite
  rw [Set.ncard_eq_toFinset_card _ hfinite]
  exact h.tidy.card_le h.atRest h.toWellFormed ha hassignable

end Solver

/-! ## Rows -/

namespace Chain

open Solver (Orderly Stands Shelved Erased)

variable {W T : Type} {chain : Chain} {twoWay : Bool} {pins : Finset ConstraintId}
  {s s' : Solver W T} {c k : ConstraintId} {node : Constraint W T} {i : Nat} {u v w : VarId}

/-- The solver has the links of the chain and pins on its variables, and no other constraints. Not every
variable need be linked to the next. -/
structure Row (chain : Chain) (twoWay : Bool) (pins : Finset ConstraintId) (s : Solver W T) : Prop where
  /-- The variables are distinct. -/
  vars_nodup : chain.vars.Nodup
  /-- The links are distinct. -/
  links_nodup : chain.links.Nodup
  /-- The variables exist. -/
  live : ∀ v ∈ chain.vars, (s.variableAt? v).isSome
  /-- Each link relates neighbours. -/
  link : ∀ {i c}, chain.links[i]? = some c → ∃ v w node, chain.vars[i]? = some v ∧
    chain.vars[i + 1]? = some w ∧ s.constraintAt? c = some node ∧ node.definition.Links twoWay v w
  /-- Each pin is on a variable of the chain. -/
  pin : ∀ {c}, c ∈ pins → c ∉ chain.links ∧ ∃ node v, s.constraintAt? c = some node ∧
    node.sink = none ∧ v ∈ chain.vars ∧ node.definition.Pins v
  /-- There are no other constraints. -/
  all : ∀ {c}, (s.constraintAt? c).isSome → c ∈ chain.links ∨ c ∈ pins

/-- A constraint of a row is a link or a pin. -/
theorem Row.cases (h : chain.Row twoWay pins s) (hnode : s.constraintAt? c = some node) :
    (∃ i v w, chain.links[i]? = some c ∧ chain.vars[i]? = some v ∧ chain.vars[i + 1]? = some w ∧
      node.definition.Links twoWay v w) ∨
    (c ∈ pins ∧ c ∉ chain.links ∧ node.sink = none ∧ ∃ v ∈ chain.vars, node.definition.Pins v) := by
  rcases h.all (by rw [hnode]; rfl) with hc | hc
  · obtain ⟨i, hi⟩ := List.mem_iff_getElem?.1 hc
    obtain ⟨v, w, n, hv, hw, hn, hlinks⟩ := h.link hi
    obtain rfl := Option.some.inj (hnode.symm.trans hn)
    exact .inl ⟨i, v, w, hi, hv, hw, hlinks⟩
  · obtain ⟨hnot, n, v, hn, hsink, hv, hpins⟩ := h.pin hc
    obtain rfl := Option.some.inj (hnode.symm.trans hn)
    exact .inr ⟨hc, hnot, hsink, v, hv, hpins⟩

/-- Neither links nor pins are volatile. -/
theorem Row.nonvolatile (h : chain.Row twoWay pins s) (hnode : s.constraintAt? c = some node) :
    node.definition.volatile = false := by
  obtain ⟨_, _, _, _, _, _, hlinks⟩ | ⟨_, _, _, _, _, hpins⟩ := h.cases hnode
  · exact hlinks.volatile
  · exact hpins.volatile

/-- So there are as many constraints as links and pins. -/
theorem Row.size_eq (h : chain.Row twoWay pins s) :
    s.constraints.size = chain.links.length + pins.card := by
  have hapart : Disjoint chain.links.toFinset pins := by
    refine Finset.disjoint_right.2 fun c hc hlink => ?_
    exact (h.pin hc).1 (List.mem_toFinset.1 hlink)
  have hkeys : ∀ c, c ∈ chain.links.toFinset ∪ pins ↔ (s.constraintAt? c).isSome := by
    intro c
    rw [Finset.mem_union, List.mem_toFinset]
    constructor
    · rintro (hc | hc)
      · obtain ⟨i, hi⟩ := List.mem_iff_getElem?.1 hc
        obtain ⟨_, _, node, _, _, hnode, _⟩ := h.link hi
        exact Option.isSome_iff_exists.2 ⟨node, hnode⟩
      · obtain ⟨_, node, _, hnode, _⟩ := h.pin hc
        exact Option.isSome_iff_exists.2 ⟨node, hnode⟩
    · exact h.all
  rw [Arena.size_eq_card hkeys, Finset.card_union_of_disjoint hapart,
    List.toFinset_card_of_nodup h.links_nodup]

/-- There are fewer links than variables, and so there is room for another constraint if there are no
pins. -/
theorem Row.size_lt (h : chain.Row twoWay ∅ s) (hv : v ∈ chain.vars) :
    s.constraints.size < Arena.maxSlots := by
  have hlinks : chain.links.length < chain.vars.length := by
    -- the last link has a variable after it
    cases hlast : chain.links[chain.links.length - 1]? with
    | none =>
      have hle := List.getElem?_eq_none_iff.1 hlast
      have hpos := List.length_pos_of_mem hv
      omega
    | some c =>
      obtain ⟨_, w, _, _, hw, _⟩ := h.link hlast
      have hlt := (List.getElem?_eq_some_iff.1 hw).1
      omega
  have hvars : chain.vars.length ≤ s.vars.size := by
    rw [← List.toFinset_card_of_nodup h.vars_nodup]
    exact Arena.card_le_size fun v hv => h.live v (List.mem_toFinset.1 hv)
  rw [h.size_eq, Finset.card_empty, Nat.add_zero]
  exact Nat.lt_of_lt_of_le hlinks (hvars.trans s.vars.size_le_maxSlots)

/-! ### What keeps a row -/

/-- A row is still there after what only moves methods and values. -/
theorem Row.stands (h : chain.Row twoWay pins s) (hs : s.Stands s') : chain.Row twoWay pins s' where
  vars_nodup := h.vars_nodup
  links_nodup := h.links_nodup
  live v hv := (hs.live v).trans (h.live v hv)
  link hi := by
    obtain ⟨v, w, node, hv, hw, hnode, hlinks⟩ := h.link hi
    obtain ⟨node', hnode', hd, _⟩ := hs.constraint_of hnode
    exact ⟨v, w, node', hv, hw, hnode', hd ▸ hlinks⟩
  pin hc := by
    obtain ⟨hnot, node, v, hnode, hsink, hv, hpins⟩ := h.pin hc
    obtain ⟨node', hnode', hd, hsink'⟩ := hs.constraint_of hnode
    exact ⟨hnot, node', v, hnode', hsink'.trans hsink, hv, hd ▸ hpins⟩
  all hc := by
    obtain ⟨node', hnode'⟩ := Option.isSome_iff_exists.1 hc
    obtain ⟨node, hnode, _⟩ := hs.symm.constraint_of hnode'
    exact h.all (by rw [hnode]; rfl)

section Shelved

variable {cells : Prop} (hs : s.Shelved cells s' c node)
include hs

/-- A constraint that has just been stored was not in the row. -/
theorem Row.not_mem_of_shelved (h : chain.Row twoWay pins s) : c ∉ chain.links ∧ c ∉ pins := by
  constructor
  · intro hc
    obtain ⟨i, hi⟩ := List.mem_iff_getElem?.1 hc
    obtain ⟨_, _, n, _, _, hn, _⟩ := h.link hi
    cases hs.fresh.symm.trans hn
  · intro hc
    obtain ⟨_, n, _, hn, _⟩ := h.pin hc
    cases hs.fresh.symm.trans hn

/-- Only one constraint has been stored. -/
theorem Row.all_of_shelved (h : chain.Row twoWay pins s) (hk : (s'.constraintAt? k).isSome) :
    k = c ∨ k ∈ chain.links ∨ k ∈ pins := by
  by_cases he : k = c
  · exact .inl he
  · rw [hs.constraintAt_ne he] at hk
    exact .inr (h.all hk)

/-- A pin is stored. -/
theorem Row.pinned (h : chain.Row twoWay pins s) (hv : v ∈ chain.vars) (hsink : node.sink = none)
    (hpins : node.definition.Pins v) : chain.Row twoWay (insert c pins) s' where
  vars_nodup := h.vars_nodup
  links_nodup := h.links_nodup
  live v hv := by
    rw [hs.variableAt]
    exact h.live v hv
  link hi := by
    obtain ⟨v, w, n, hv, hw, hn, hlinks⟩ := h.link hi
    exact ⟨v, w, n, hv, hw, hs.constraint_of hn, hlinks⟩
  pin hk := by
    rcases Finset.mem_insert.1 hk with rfl | hk
    · exact ⟨(h.not_mem_of_shelved hs).1, node, v, hs.stored, hsink, hv, hpins⟩
    · obtain ⟨hnot, n, v, hn, hrest⟩ := h.pin hk
      exact ⟨hnot, n, v, hs.constraint_of hn, hrest⟩
  all hk := by
    rw [Finset.mem_insert]
    have hall := h.all_of_shelved hs hk
    tauto

/-- The next link is stored. -/
theorem Row.linked (h : chain.Row twoWay pins s) (hv : chain.vars[chain.links.length]? = some v)
    (hw : chain.vars[chain.links.length + 1]? = some w) (hlinks : node.definition.Links twoWay v w) :
    Row ⟨chain.vars, chain.links ++ [c]⟩ twoWay pins s' where
  vars_nodup := h.vars_nodup
  links_nodup := by
    refine List.nodup_append.2 ⟨h.links_nodup, List.nodup_singleton c, fun k hk j hj => ?_⟩
    rintro rfl
    exact (h.not_mem_of_shelved hs).1 (List.mem_singleton.1 hj ▸ hk)
  live v hv := by
    rw [hs.variableAt]
    exact h.live v hv
  link {i k} hi := by
    change (chain.links ++ [c])[i]? = some k at hi
    rw [List.getElem?_append] at hi
    split at hi
    · obtain ⟨v, w, n, hv, hw, hn, hlinks⟩ := h.link hi
      exact ⟨v, w, n, hv, hw, hs.constraint_of hn, hlinks⟩
    · -- the new link stands at the end of the list
      next hlt =>
      obtain ⟨he, rfl⟩ : i - chain.links.length = 0 ∧ c = k := by
        rw [List.getElem?_singleton] at hi
        split at hi
        · next he => exact ⟨he, Option.some.inj hi⟩
        · cases hi
      obtain rfl : i = chain.links.length := by omega
      exact ⟨v, w, node, hv, hw, hs.stored, hlinks⟩
  pin hk := by
    obtain ⟨hnot, n, v, hn, hrest⟩ := h.pin hk
    refine ⟨fun hmem => ?_, n, v, hs.constraint_of hn, hrest⟩
    rcases List.mem_append.1 hmem with hmem | hmem
    · exact hnot hmem
    · exact (h.not_mem_of_shelved hs).2 (List.mem_singleton.1 hmem ▸ hk)
  all hk := by
    rw [List.mem_append, List.mem_singleton]
    have hall := h.all_of_shelved hs hk
    tauto

end Shelved

/-- A pin is erased. -/
theorem Row.erased (h : chain.Row twoWay pins s) (he : s.Erased s' c) (hc : c ∈ pins) :
    chain.Row twoWay (pins.erase c) s' where
  vars_nodup := h.vars_nodup
  links_nodup := h.links_nodup
  live v hv := by
    rw [he.variableAt]
    exact h.live v hv
  link {i k} hi := by
    obtain ⟨v, w, n, hv, hw, hn, hlinks⟩ := h.link hi
    refine ⟨v, w, n, hv, hw, (he.constraintAt_ne ?_).trans hn, hlinks⟩
    rintro rfl
    exact (h.pin hc).1 (List.mem_of_getElem? hi)
  pin hk := by
    obtain ⟨hne, hk⟩ := Finset.mem_erase.1 hk
    obtain ⟨hnot, n, v, hn, hrest⟩ := h.pin hk
    exact ⟨hnot, n, v, (he.constraintAt_ne hne).trans hn, hrest⟩
  all {k} hk := by
    rw [he.constraintAt] at hk
    split at hk
    · cases hk
    · next hne => exact (h.all hk).imp_right fun hmem => Finset.mem_erase.2 ⟨hne, hmem⟩

/-! ### A row is a forest -/

/-- The place of a variable or constraint in the order in which a row is read: each link after its first
variable, and the pins last. -/
def place (chain : Chain) : ConstraintId ⊕ VarId → Nat
  | .inl c => if c ∈ chain.links then 2 * chain.links.idxOf c + 1 else 2 * chain.vars.length
  | .inr v => 2 * chain.vars.idxOf v

/-- In a list without repetition the index of an element is its place. -/
theorem idxOf_eq {α : Type} [DecidableEq α] {l : List α} {a : α} (h : l.Nodup) (hi : l[i]? = some a) :
    l.idxOf a = i := by
  obtain ⟨hlt, rfl⟩ := List.getElem?_eq_some_iff.1 hi
  exact h.idxOf_getElem i hlt

/-- The place of a variable of the row. -/
theorem Row.place_var (h : chain.Row twoWay pins s) (hv : chain.vars[i]? = some v) :
    chain.place (.inr v) = 2 * i := by
  rw [place, idxOf_eq h.vars_nodup hv]

/-- The place of a link of the row. -/
theorem Row.place_link (h : chain.Row twoWay pins s) (hc : chain.links[i]? = some c) :
    chain.place (.inl c) = 2 * i + 1 := by
  rw [place, if_pos (List.mem_of_getElem? hc), idxOf_eq h.links_nodup hc]

/-- Of the variables of a constraint only one comes before it. -/
theorem Row.eq_of_place_var_le (h : chain.Row twoWay pins s) (hv : s.Mentions c v)
    (hw : s.Mentions c w) (hlv : chain.place (.inr v) ≤ chain.place (.inl c))
    (hlw : chain.place (.inr w) ≤ chain.place (.inl c)) : v = w := by
  obtain ⟨node, hnode, hv⟩ := hv
  obtain ⟨n, hn, hw⟩ := hw
  obtain rfl := Option.some.inj (hnode.symm.trans hn)
  obtain ⟨i, a, b, hc, ha, hb, hlinks⟩ | ⟨_, _, _, a, _, hpins⟩ := h.cases hnode
  · have hfirst : ∀ u ∈ node.definition.vars, chain.place (.inr u) ≤ chain.place (.inl c) → u = a := by
      intro u hu hle
      refine (hlinks.mem_vars.1 hu).resolve_right ?_
      rintro rfl
      rw [h.place_var hb, h.place_link hc] at hle
      omega
    exact (hfirst v hv hlv).trans (hfirst w hw hlw).symm
  · exact (hpins.mem_vars.1 hv).trans (hpins.mem_vars.1 hw).symm

/-- The only constraint on a variable that comes before it is the link to the variable before. -/
theorem Row.link_of_place_le (h : chain.Row twoWay pins s) (hv : s.Mentions c v)
    (hle : chain.place (.inl c) ≤ chain.place (.inr v)) :
    chain.links[chain.vars.idxOf v - 1]? = some c := by
  obtain ⟨node, hnode, hv⟩ := hv
  obtain ⟨i, a, b, hc, ha, hb, hlinks⟩ | ⟨_, hnot, _, a, ha, hpins⟩ := h.cases hnode
  · rw [h.place_link hc] at hle
    rcases hlinks.mem_vars.1 hv with rfl | rfl
    · rw [h.place_var ha] at hle
      omega
    · rw [idxOf_eq h.vars_nodup hb]
      exact hc
  · -- pins come after all variables
    obtain rfl := hpins.mem_vars.1 hv
    have hlt := List.idxOf_lt_length_of_mem ha
    rw [place, place, if_neg hnot] at hle
    omega

/-- Nothing has two neighbours before it. -/
theorem Row.acyclic (h : chain.Row twoWay pins s) (S : ConstraintId → Prop) :
    (s.incidence S).IsAcyclic := by
  refine Solver.isAcyclic_of_label chain.place fun x a b ha hb hla hlb => ?_
  match x, a, b with
  | .inl c, .inr v, .inr w =>
    exact congrArg _ (h.eq_of_place_var_le (Solver.incidence_adj.1 ha).2
      (Solver.incidence_adj.1 hb).2 hla hlb)
  | .inr v, .inl c, .inl k =>
    have hc := h.link_of_place_le (Solver.incidence_adj_symm.1 ha).2 hla
    have hk := h.link_of_place_le (Solver.incidence_adj_symm.1 hb).2 hlb
    exact congrArg _ (Option.some.inj (hc.symm.trans hk))
  | .inl c, .inl k, _ => exact absurd ha (by simp [Solver.incidence])
  | .inr v, .inr w, _ => exact absurd ha (by simp [Solver.incidence])
  | .inl c, _, .inl k => exact absurd hb (by simp [Solver.incidence])
  | .inr v, _, .inr w => exact absurd hb (by simp [Solver.incidence])

/-- Whatever is enabled in a row, the graph is a forest. -/
theorem Row.forestWith (h : chain.Row twoWay pins s) (c : ConstraintId) : s.ForestWith c := h.acyclic _

/-! ### Methods in force -/

/-- The place of the variable that a constraint is given when the pins are on the variable at `p`: the
links before it are given the earlier one of their variables. -/
def given (chain : Chain) (p : Nat) (c : ConstraintId) : Nat :=
  if c ∈ chain.links then
    if chain.links.idxOf c < p then chain.links.idxOf c else chain.links.idxOf c + 1
  else p

/-- Only links have places of their own. -/
theorem given_inj (p : Nat) {j : ConstraintId} (hpin : k ∉ chain.links → j ∉ chain.links → k = j)
    (he : chain.given p k = chain.given p j) : k = j := by
  unfold given at he
  by_cases hk : k ∈ chain.links <;> by_cases hj : j ∈ chain.links
  · refine (List.idxOf_inj hk).1 ?_
    rw [if_pos hk, if_pos hj] at he
    split at he <;> split at he <;> omega
  · rw [if_pos hk, if_neg hj] at he
    split at he <;> omega
  · rw [if_neg hk, if_pos hj] at he
    split at he <;> omega
  · exact hpin hk hj

section Strong

variable {p : Nat} {c : ConstraintId} (hp : p = 0 ∨ twoWay = true)
  (hone : ∀ k ∈ pins, ∀ node, s.constraintAt? k = some node → node.enabled = true →
    .strong ≤ node.definition.strength →
    k = c ∧ ∃ v, chain.vars[p]? = some v ∧ node.definition.Pins v)
include hp hone

/-- A strong constraint can determine the variable at the place that it is given. -/
theorem Row.exists_given (h : chain.Row twoWay pins s) (hnode : s.constraintAt? k = some node)
    (hk : k ∈ s.Insisting .strong) : ∃ v, chain.vars[chain.given p k]? = some v ∧
      ∃ method ∈ node.definition.methods, method.output = v := by
  obtain ⟨n, hn, hen, hle⟩ := hk
  obtain rfl := Option.some.inj (hnode.symm.trans hn)
  obtain ⟨i, v, w, hi, hv, hw, hlinks⟩ | ⟨hpin, hnot, _⟩ := h.cases hnode
  · rw [given, if_pos (List.mem_of_getElem? hi), idxOf_eq h.links_nodup hi]
    split
    · next hlt =>
      obtain rfl := hp.resolve_left (by omega)
      exact ⟨v, hv, _, hlinks.copy_back_mem, rfl⟩
    · exact ⟨w, hw, _, hlinks.copy_mem, rfl⟩
  · obtain ⟨_, v, hv, hpins⟩ := hone k hpin node hnode hen hle
    obtain ⟨method, hmethod, hout, _⟩ := hpins.output
    rw [given, if_neg hnot]
    exact ⟨v, hv, method, hmethod, hout⟩

/-- If no more than one enabled pin is strong, and it is on the first variable unless the chain is
two-way, all strong constraints that are enabled have a method in force. -/
theorem Row.isEnforcing (h : chain.Row twoWay pins s) (horderly : s.Orderly)
    (hnode : s.constraintAt? k = some node) (hen : node.enabled = true)
    (hle : .strong ≤ node.definition.strength) : node.isEnforcing = true := by
  have hpin : ∀ k ∈ s.Insisting .strong, k ∉ chain.links → k = c := by
    rintro k ⟨n, hn, hen, hle⟩ hnot
    exact (hone k ((h.all (by rw [hn]; rfl)).resolve_left hnot) n hn hen hle).1
  have henforced : s.Enforced .strong = s.Insisting .strong := by
    refine horderly.enforced_eq (by decide) (fun k => chain.vars[chain.given p k]?.getD ⟨0, 0⟩)
      (fun k hk j hj he => ?_) fun k node hnode hk => ?_
    · -- the places that are given are distinct, and so are the variables there
      obtain ⟨n, hn, _⟩ := id hk
      obtain ⟨n', hn', _⟩ := id hj
      obtain ⟨v, hv, _⟩ := h.exists_given hp hone hn hk
      obtain ⟨w, hw, _⟩ := h.exists_given hp hone hn' hj
      simp only [hv, hw, Option.getD_some] at he
      subst he
      refine given_inj p (fun hkl hjl => (hpin k hk hkl).trans (hpin j hj hjl).symm) ?_
      rw [← idxOf_eq h.vars_nodup hv, idxOf_eq h.vars_nodup hw]
    · obtain ⟨v, hv, hmethod⟩ := h.exists_given hp hone hnode hk
      simp only [hv, Option.getD_some]
      exact hmethod
  have hmem : k ∈ s.Insisting .strong := ⟨node, hnode, hen, hle⟩
  rw [← henforced] at hmem
  obtain ⟨n, hn, henf, _⟩ := hmem
  obtain rfl := Option.some.inj (hnode.symm.trans hn)
  exact henf

end Strong

/-- The links are strong. -/
theorem Row.link_isEnforcing (h : chain.Row twoWay pins s)
    (henf : ∀ {k node}, s.constraintAt? k = some node → node.enabled = true →
      .strong ≤ node.definition.strength → node.isEnforcing = true)
    (hk : k ∈ chain.links) (hen : s.Enabled k) : s.isEnforcing k = true := by
  obtain ⟨i, hi⟩ := List.mem_iff_getElem?.1 hk
  obtain ⟨v, w, node, _, _, hnode, hlinks⟩ := h.link hi
  obtain ⟨n, hn, hen⟩ := hen
  obtain rfl := Option.some.inj (hnode.symm.trans hn)
  rw [Solver.isEnforcing, hnode]
  exact henf hnode hen (Nat.le_of_eq (congrArg Strength.rank hlinks.strength.symm))

/-! ### Values -/

/-- Every variable of a row is constant. -/
theorem Row.constantAt (h : chain.Row twoWay pins s) (horderly : s.Orderly) (v : VarId) :
    s.constantAt v = true :=
  horderly.atRest.constantAt_of_nonvolatile horderly.toWellFormed (fun _ _ => h.nonvolatile) v

/-- A method in force in an orderly row yields the value of its output. -/
theorem Row.yields {method : Method W T} (h : chain.Row twoWay pins s) (horderly : s.Orderly)
    (hnode : s.constraintAt? c = some node) (hmethod : node.enforcingMethod? = some method) :
    method.Yields (valuesFrom s.cellAt method.inputs) (s.cellAt method.output) :=
  (horderly.atRest.settled c hnode hmethod).2.2 trivial (h.constantAt horderly _)

/-- A constant is set by the constraint that holds a variable at it. -/
theorem Row.cell_of_edit {a : Strength} {label : Option String} {value : T}
    (h : chain.Row twoWay pins s) (horderly : s.Orderly) (hnode : s.constraintAt? c = some node)
    (hd : node.definition = .edit a label v value) (henf : node.isEnforcing = true) :
    s.cellAt v = .assigned value := by
  obtain ⟨method, hmem, hmethod⟩ := horderly.exists_method hnode henf
  have hyields := h.yields horderly hnode hmethod
  rw [hd] at hmem
  obtain rfl := List.mem_singleton.1 hmem
  obtain ⟨w, hcell⟩ := hyields
  exact hcell

/-- The variables of a link in force have the same value, if they have one. -/
theorem Row.cell_eq (h : chain.Row twoWay pins s) (horderly : s.Orderly)
    (hassigned : ∀ v ∈ chain.vars, ∃ x, s.cellAt v = .assigned x)
    (hc : chain.links[i]? = some c) (hv : chain.vars[i]? = some v)
    (hw : chain.vars[i + 1]? = some w) (henf : s.isEnforcing c = true) :
    s.cellAt v = s.cellAt w := by
  obtain ⟨v', w', node, hv', hw', hnode, hlinks⟩ := h.link hc
  obtain rfl := Option.some.inj (hv.symm.trans hv')
  obtain rfl := Option.some.inj (hw.symm.trans hw')
  rw [Solver.isEnforcing, hnode] at henf
  obtain ⟨method, hmem, hmethod⟩ := horderly.exists_method hnode henf
  have hyields := h.yields horderly hnode hmethod
  -- the link copies in one direction or the other
  rcases hlinks.method_cases hmem with rfl | ⟨_, rfl⟩
  · obtain ⟨x, hx⟩ := hassigned v (List.mem_of_getElem? hv)
    exact hx.trans (Method.eq_of_yields_copy hx hyields).symm
  · obtain ⟨x, hx⟩ := hassigned w (List.mem_of_getElem? hw)
    exact (Method.eq_of_yields_copy hx hyields).trans hx.symm

end Chain

end DeltaBlue
