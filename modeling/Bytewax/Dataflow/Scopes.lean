import Bytewax.Dataflow.Operator
import Bytewax.Lib.MapM
import Bytewax.Lib.Nesting
import Mathlib.Data.List.Nodup

/-!
# Bytewax.Dataflow.Scopes — lists of substeps and step IDs

What the actions of a program do (`Moves`), and how the scopes of handles, steps and calls hang
together whatever the program does (`Shape`).  The check for existing IDs is among the steps of one
list; with the ban on periods it makes the step IDs of a whole dataflow different
(`Shape.eq_of_parentId`).
-/

namespace Bytewax

/-! ### Lists and their IDs -/

/-- The part of an ID after its last period, and what is before, are given by the ID. -/
theorem eq_of_append_period {p p' : String} {i i' : PlainId}
    (h : p ++ "." ++ i.id = p' ++ "." ++ i'.id) : p = p' ∧ i = i' := by
  have hl : p.toList ++ '.' :: i.id.toList = p'.toList ++ '.' :: i'.id.toList := by
    simpa [String.toList_append] using congrArg String.toList h
  -- What one side has before its last period and the other has not would hold a period.
  have hplain : ∀ {m r r' : List Char}, '.' :: r = m ++ '.' :: r' → '.' ∉ r → m = [] ∧ r = r' := by
    intro m r r' hm hr
    cases m with
    | nil => exact ⟨rfl, (List.cons.inj hm).2⟩
    | cons c m =>
      obtain ⟨-, rfl⟩ := List.cons.inj hm
      exact absurd (List.mem_append_right _ List.mem_cons_self) hr
  have hsplit : p.toList = p'.toList ∧ i.id.toList = i'.id.toList := by
    rcases List.append_eq_append_iff.mp hl with ⟨m, hp, hm⟩ | ⟨m, hp, hm⟩
    · obtain ⟨rfl, hi⟩ := hplain hm i.noPeriod
      exact ⟨by rw [hp, List.append_nil], hi⟩
    · obtain ⟨rfl, hi⟩ := hplain hm i'.noPeriod
      exact ⟨by rw [hp, List.append_nil], hi.symm⟩
  obtain ⟨hp, hi⟩ := hsplit
  refine ⟨String.toList_inj.mp hp, ?_⟩
  cases i
  cases i'
  congr 1
  exact String.toList_inj.mp hi

/-- An ID with a period is not an ID without one. -/
theorem ne_append_period {p s : String} {i : PlainId} : i.id ≠ p ++ "." ++ s := by
  intro h
  refine i.noPeriod ?_
  rw [h]
  simp [String.toList_append]

namespace Substeps

variable {s o : Substeps}

theorem root_eq_of_outer (h : s.outer = some o) : s.root = o.root := by
  cases s with
  | flow ref flowId => cases h
  | step ref outer stepName =>
    cases h
    rfl

end Substeps

/-- The lists of substeps that steps own. -/
def nesting : Nesting OperatorStep Substeps where
  own := OperatorStep.substeps
  outer := Substeps.outer
  depth := Substeps.depth
  depth_outer {s o} h := by
    cases s with
    | flow ref flowId => cases h
    | step ref outer stepName =>
      cases h
      rfl

/-- A list is in the list of its `Dataflow`. -/
theorem around_root (s : Substeps) : nesting.Around s.root s := by
  induction s with
  | flow ref flowId => exact .refl _
  | step ref outer stepName ih => exact .inner rfl ih

theorem root_eq_of_around {s t : Substeps} (h : nesting.Around s t) : t.root = s.root := by
  induction h with
  | refl => rfl
  | inner houter _ ih => exact (Substeps.root_eq_of_outer houter).trans ih

@[simp] theorem OperatorStep.outer_substeps (e : OperatorStep) :
    e.substeps.outer = some e.outer := rfl

@[simp] theorem OperatorStep.parentId_substeps (e : OperatorStep) :
    e.substeps.parentId = e.stepId := rfl

@[simp] theorem OperatorStep.root_substeps (e : OperatorStep) :
    e.substeps.root = e.outer.root := rfl

@[simp] theorem OperatorCall.outer_inner (c : OperatorCall) :
    c.inner.substeps.outer = some c.outer.substeps := rfl

@[simp] theorem OperatorCall.substeps_step (c : OperatorCall) (downs : List Port) :
    (c.step downs).substeps = c.inner.substeps := rfl

/-- The lists that a scope knows. -/
def Scope.lists (scope : Scope) : List Substeps := scope.substeps :: scope.flows

theorem Scope.lists_flow_subset (scope : Scope) : scope.flow.lists ⊆ scope.lists := by
  obtain ⟨substeps, flows⟩ := scope
  cases flows with
  | nil => exact List.Subset.refl _
  | cons s flows => exact List.subset_cons_self _ _

theorem OperatorCall.mem_lists_inner {c : OperatorCall} {s : Substeps} (h : s ∈ c.inner.lists) :
    s = c.inner.substeps ∨ s ∈ c.outer.lists := by
  rcases List.mem_cons.mp h with h | h
  · exact .inl h
  · rcases List.mem_cons.mp h with h | h
    · exact .inl h
    · exact .inr (Scope.lists_flow_subset _ h)

theorem CoreOp.handles_args {op : CoreOp} {is : List ℕ} {args : List Arg}
    (h : op.args is = some args) : args.flatMap Arg.handles = is := by
  unfold CoreOp.args at h
  split at h <;> cases h <;> simp [Arg.handles]

/-- What the decorator and the builders of core operators say about the ports of a step. -/
structure OperatorStep.WellPorted (e : OperatorStep) : Prop where
  names : ((e.ups ++ e.downs).map Port.name).Nodup
  downs : ∀ op, e.typ = .core op → e.downs = op.downs e.stepId

namespace Building

variable {b b' : Building} {action : BuildAction} {new : List Handle}

/-! ### What an action does -/

/-- What a call finds out about its arguments. -/
structure Enters (b : Building) (typ : OpType) (args : List Arg) (c : OperatorCall)
    (handles : List Handle) : Prop where
  typ : c.typ = typ
  ref : c.ref = b.fresh
  ups : b.ports args = some c.ups
  lookup : b.lookup (args.flatMap Arg.handles) = some handles
  outer : ∃ h ∈ handles, c.outer = h.scope
  scopes : ∀ h ∈ handles, h.scope.substeps.parentId = c.outer.substeps.parentId

/-- No step of the list of `c` has its ID. -/
def Unused (b : Building) (c : OperatorCall) : Prop :=
  ∀ e ∈ b.steps, e.outer = c.outer.substeps → e.stepId ≠ c.inner.substeps.parentId

/-- The state after an action. -/
inductive Moves (b : Building) : BuildAction → Building → Prop
  | dataflow (id : PlainId) :
    Moves b (.dataflow id.id)
      ⟨b.steps, b.handles ++ [⟨⟨.flow b.fresh id, []⟩, none⟩], b.calls, b.fresh + 1⟩
  | flow (i : ℕ) {h : Handle} (hmem : h ∈ b.handles) :
    Moves b (.flow i) ⟨b.steps, b.handles ++ [⟨h.scope.flow, none⟩], b.calls, b.fresh⟩
  | callCore {op : CoreOp} {is : List ℕ} {args : List Arg} {c : OperatorCall}
      {handles : List Handle} (hargs : op.args is = some args)
      (henters : b.Enters (.core op) args c handles)
      (hnew : b.Unused c) :
    Moves b (.callCore op c.stepName.id is)
      ⟨b.steps ++ [c.step (op.downs c.inner.substeps.parentId)],
        b.handles ++ (c.step (op.downs c.inner.substeps.parentId)).downIds.map
          fun id => ⟨c.outer, some id⟩, b.calls, b.fresh + 1⟩
  | call {opType : String} {args : List Arg} {c : OperatorCall} {handles : List Handle}
      (henters : b.Enters (.other opType) args c handles) :
    Moves b (.call opType c.stepName.id args)
      ⟨b.steps, b.handles ++ handles.map fun h => h.withScope c.inner, c :: b.calls, b.fresh + 1⟩
  | ret {out : List Arg} {downs : List Port} {handles : List Handle} {c : OperatorCall}
      {calls : List OperatorCall} (hcalls : b.calls = c :: calls)
      (hdowns : b.ports out = some downs)
      (hlookup : b.lookup (out.flatMap Arg.handles) = some handles)
      (hnames : ((c.ups ++ downs).map Port.name).Nodup) (hnew : b.Unused c) :
    Moves b (.ret out) ⟨b.steps ++ [c.step downs],
      b.handles ++ handles.map fun h => h.withScope c.outer, calls, b.fresh⟩

theorem PlainId.ofString_eq_some {s : String} {id : PlainId} (h : PlainId.ofString s = some id) :
    s = id.id := by
  unfold PlainId.ofString at h
  split at h
  · cases h
    rfl
  · cases h

theorem append_eq_some {e : OperatorStep} (h : b.append e = some b') :
    (∀ e' ∈ b.steps, e'.outer = e.outer → e'.stepId ≠ e.stepId) ∧
      b' = { b with steps := b.steps ++ [e] } := by
  unfold append at h
  split at h
  · cases h
  · next hnew =>
    cases h
    exact ⟨fun e' he ho hid => hnew ⟨e', he, ho, hid⟩, rfl⟩

theorem outerScope_eq_some {handles : List Handle} {outer : Scope}
    (h : outerScope handles = some outer) : (∃ h ∈ handles, outer = h.scope) ∧
      ∀ h ∈ handles, h.scope.substeps.parentId = outer.substeps.parentId := by
  cases handles with
  | nil => cases h
  | cons arg rest =>
    obtain ⟨hall, heq⟩ := Option.ite_none_right_eq_some.mp h
    cases heq
    exact ⟨⟨arg, List.mem_cons_self, rfl⟩, List.forall_mem_cons.mpr ⟨rfl, hall⟩⟩

theorem enter_eq_some {typ : OpType} {s : String} {args : List Arg} {c : OperatorCall}
    {handles : List Handle} (h : b.enter typ s args = some (c, handles)) :
    s = c.stepName.id ∧ b.Enters typ args c handles := by
  obtain ⟨ups, hups, h⟩ := Option.bind_eq_some_iff.mp h
  obtain ⟨stepName, hname, h⟩ := Option.bind_eq_some_iff.mp h
  obtain ⟨handles', hlookup, h⟩ := Option.bind_eq_some_iff.mp h
  obtain ⟨outer, houter, h⟩ := Option.bind_eq_some_iff.mp h
  cases h
  obtain ⟨hmem, hscopes⟩ := outerScope_eq_some houter
  exact ⟨PlainId.ofString_eq_some hname, rfl, rfl, hups, hlookup, hmem, hscopes⟩

theorem moves_of_step (h : b.step action = some (b', new)) : Moves b action b' := by
  obtain ⟨⟨b₁, new₁⟩, hact, h⟩ := Option.bind_eq_some_iff.mp h
  cases h
  cases action with
  | dataflow flowId =>
    obtain ⟨id, hid, hact⟩ := Option.bind_eq_some_iff.mp hact
    cases hact
    rw [PlainId.ofString_eq_some hid]
    exact .dataflow id
  | flow i =>
    obtain ⟨h, hh, hact⟩ := Option.bind_eq_some_iff.mp hact
    obtain ⟨-, hact⟩ := Option.ite_none_right_eq_some.mp hact
    cases hact
    exact .flow i (List.mem_of_getElem? hh)
  | callCore op s is =>
    obtain ⟨args, hargs, hentered⟩ := Option.bind_eq_some_iff.mp hact
    obtain ⟨⟨c, handles⟩, henter, hstored⟩ := Option.bind_eq_some_iff.mp hentered
    obtain ⟨rfl, henters⟩ := enter_eq_some henter
    obtain ⟨b₂, happend, hout⟩ := Option.bind_eq_some_iff.mp hstored
    obtain ⟨hnew, rfl⟩ := append_eq_some happend
    cases hout
    exact .callCore hargs henters hnew
  | call opType s args =>
    obtain ⟨⟨c, handles⟩, henter, hout⟩ := Option.bind_eq_some_iff.mp hact
    obtain ⟨rfl, henters⟩ := enter_eq_some henter
    cases hout
    exact .call henters
  | ret out =>
    obtain ⟨c, hcall, hact⟩ := Option.bind_eq_some_iff.mp hact
    obtain ⟨downs, hdowns, hact⟩ := Option.bind_eq_some_iff.mp hact
    obtain ⟨handles, hlookup, hact⟩ := Option.bind_eq_some_iff.mp hact
    obtain ⟨hnames, hact⟩ := Option.ite_none_right_eq_some.mp hact
    obtain ⟨b₂, happend, hact⟩ := Option.bind_eq_some_iff.mp hact
    obtain ⟨hnew, rfl⟩ := append_eq_some happend
    cases hact
    obtain ⟨calls, hcalls⟩ := List.head?_eq_some_iff.mp hcall
    simp only [hcalls, List.tail_cons]
    exact .ret hcalls hdowns hlookup hnames hnew

theorem mem_handles_of_lookup {is : List ℕ} {handles : List Handle} {h : Handle}
    (hl : b.lookup is = some handles) (hh : h ∈ handles) : h ∈ b.handles := by
  obtain ⟨i, -, hget⟩ := (MapM.mem_iff hl).mp hh
  exact List.mem_of_getElem? hget

theorem Enters.mem_outer {typ : OpType} {args : List Arg} {c : OperatorCall} {handles : List Handle}
    (h : b.Enters typ args c handles) : ∃ h ∈ b.handles, c.outer = h.scope := by
  obtain ⟨h', hmem, houter⟩ := h.outer
  exact ⟨h', mem_handles_of_lookup h.lookup hmem, houter⟩

/-! ### How scopes hang together -/

/-- A list belongs to a `Dataflow`, to a running call or to a stored step that is not of a core
operator. -/
inductive Placed (b : Building) : Substeps → Prop
  | flow (ref : ℕ) (flowId : PlainId) : Placed b (.flow ref flowId)
  | running {c : OperatorCall} (hc : c ∈ b.calls) : Placed b c.inner.substeps
  | stored {e : OperatorStep} (he : e ∈ b.steps) (hcore : e.typ.isCore = false) :
    Placed b e.substeps

/-- The calls made so far by their numbers: those of stored steps and the running ones. -/
def refs (b : Building) : List ℕ := b.steps.map OperatorStep.ref ++ b.calls.map OperatorCall.ref

/-- What holds of scopes whatever the program does. -/
structure Shape (b : Building) : Prop where
  nodup : b.refs.Nodup
  fresh : ∀ r ∈ b.refs, r < b.fresh
  other : ∀ c ∈ b.calls, c.typ.isCore = false
  calls : ∀ c ∈ b.calls, ∀ s ∈ c.outer.lists, b.Placed s
  handles : ∀ h ∈ b.handles, ∀ s ∈ h.scope.lists, b.Placed s
  steps : ∀ e ∈ b.steps, b.Placed e.outer
  siblings : (b.steps.map fun e => (e.outer, e.stepId)).Nodup

theorem shape_init : init.Shape where
  nodup := .nil
  fresh _ h := by cases h
  other _ h := by cases h
  calls _ h := by cases h
  handles _ h := by cases h
  steps _ h := by cases h
  siblings := .nil

theorem Placed.mono {s : Substeps} (h : b.Placed s) (hsteps : b.steps ⊆ b'.steps)
    (hcalls : ∀ c ∈ b.calls, b'.Placed c.inner.substeps) : b'.Placed s := by
  cases h with
  | flow ref flowId => exact .flow ref flowId
  | running hc => exact hcalls _ hc
  | stored he hcore => exact .stored (hsteps he) hcore

/-- A list stays a list of a `Dataflow`, of a running call or of a stored step. -/
theorem Shape.placed_of_moves {s : Substeps} (h : b.Shape) (hm : b.Moves action b')
    (hs : b.Placed s) : b'.Placed s := by
  cases hm with
  | dataflow id => exact hs.mono (List.Subset.refl _) fun c hc => .running hc
  | flow i hmem => exact hs.mono (List.Subset.refl _) fun c hc => .running hc
  | callCore hargs henters hnew =>
    exact hs.mono (List.subset_append_left _ _) fun c hc => .running hc
  | call henters =>
    exact hs.mono (List.Subset.refl _) fun c hc => .running (List.mem_cons_of_mem _ hc)
  | @ret out downs handles c calls hcalls =>
    refine hs.mono (List.subset_append_left _ _) fun c' hc' => ?_
    rw [hcalls] at hc'
    rcases List.mem_cons.mp hc' with rfl | hc'
    · have hcore := h.other c' (hcalls ▸ List.mem_cons_self)
      have hmem : c'.step downs ∈ b.steps ++ [c'.step downs] :=
        List.mem_append_right _ (List.mem_singleton_self _)
      exact Placed.stored (e := c'.step downs) hmem hcore
    · exact .running hc'

/-- Numbers of calls are new or stay. -/
theorem refs_of_moves (hm : b.Moves action b') :
    (b'.refs.Perm (b.fresh :: b.refs) ∧ b'.fresh = b.fresh + 1) ∨
      (b'.refs.Perm b.refs ∧ b.fresh ≤ b'.fresh) := by
  cases hm with
  | dataflow id => exact .inr ⟨.refl _, Nat.le_succ _⟩
  | flow i hmem => exact .inr ⟨.refl _, Nat.le_refl _⟩
  | callCore hargs henters hnew =>
    refine .inl ⟨?_, rfl⟩
    simp only [refs, List.map_append, List.map_cons, List.map_nil, List.append_assoc]
    rw [← henters.ref]
    exact List.perm_middle
  | call henters =>
    refine .inl ⟨?_, rfl⟩
    simp only [refs, List.map_cons]
    rw [← henters.ref]
    exact List.perm_middle
  | ret hcalls =>
    refine .inr ⟨?_, Nat.le_refl _⟩
    simp only [refs, hcalls, List.map_append, List.map_cons, List.map_nil, List.append_assoc]
    exact .refl _

/-- The scope of a handle after an action. -/
theorem Shape.handles_of_moves (h : b.Shape) (hm : b.Moves action b') :
    ∀ h' ∈ b'.handles, ∀ s ∈ h'.scope.lists, b'.Placed s := by
  have hold : ∀ h' ∈ b.handles, ∀ s ∈ h'.scope.lists, b'.Placed s :=
    fun h' hh' s hs => h.placed_of_moves hm (h.handles h' hh' s hs)
  have hplaced : ∀ s, b.Placed s → b'.Placed s := fun s hs => h.placed_of_moves hm hs
  cases hm with
  | dataflow id =>
    refine fun h' hh' s hs => (List.mem_append.mp hh').elim (hold h' · s hs) fun hnew => ?_
    rw [List.mem_singleton.mp hnew] at hs
    rw [List.mem_singleton.mp hs]
    exact .flow _ _
  | @flow i h₀ hmem =>
    refine fun h' hh' s hs => (List.mem_append.mp hh').elim (hold h' · s hs) fun hnew => ?_
    rw [List.mem_singleton.mp hnew] at hs
    exact hold h₀ hmem s (Scope.lists_flow_subset _ hs)
  | callCore hargs henters hnew =>
    refine fun h' hh' s hs => (List.mem_append.mp hh').elim (hold h' · s hs) fun hnew => ?_
    obtain ⟨id, -, rfl⟩ := List.mem_map.mp hnew
    obtain ⟨h₀, hmem, houter⟩ := henters.mem_outer
    exact hold h₀ hmem s (houter ▸ hs)
  | @call opType args c handles henters =>
    refine fun h' hh' s hs => (List.mem_append.mp hh').elim (hold h' · s hs) fun hnew => ?_
    obtain ⟨h₁, -, rfl⟩ := List.mem_map.mp hnew
    rcases OperatorCall.mem_lists_inner hs with rfl | hs
    · exact .running List.mem_cons_self
    · obtain ⟨h₀, hmem, houter⟩ := henters.mem_outer
      exact hold h₀ hmem s (houter ▸ hs)
  | @ret out downs handles c calls hcalls =>
    refine fun h' hh' s hs => (List.mem_append.mp hh').elim (hold h' · s hs) fun hnew => ?_
    obtain ⟨h₁, -, rfl⟩ := List.mem_map.mp hnew
    exact hplaced s (h.calls c (hcalls ▸ List.mem_cons_self) s hs)

theorem nodup_siblings {e : OperatorStep} (h : (b.steps.map fun e => (e.outer, e.stepId)).Nodup)
    (hnew : ∀ e' ∈ b.steps, e'.outer = e.outer → e'.stepId ≠ e.stepId) :
    ((b.steps ++ [e]).map fun e => (e.outer, e.stepId)).Nodup := by
  rw [List.map_append, List.map_singleton, ← List.concat_eq_append]
  refine h.concat fun hmem => ?_
  obtain ⟨e', he', heq⟩ := List.mem_map.mp hmem
  obtain ⟨ho, hid⟩ := Prod.mk.inj heq
  exact hnew e' he' ho hid

/-- **Scopes keep their shape**, whatever the program does. -/
theorem Shape.of_moves (h : b.Shape) (hm : b.Moves action b') : b'.Shape := by
  have hplaced : ∀ s, b.Placed s → b'.Placed s := fun s hs => h.placed_of_moves hm hs
  have houter : ∀ {typ args c handles}, b.Enters typ args c handles →
      ∀ s ∈ c.outer.lists, b'.Placed s := by
    intro typ args c handles henters s hs
    obtain ⟨h₀, hmem, ho⟩ := henters.mem_outer
    exact hplaced s (h.handles h₀ hmem s (ho ▸ hs))
  have hhandles := h.handles_of_moves hm
  have hrefs : b'.refs.Nodup ∧ ∀ r ∈ b'.refs, r < b'.fresh := by
    rcases refs_of_moves hm with ⟨hperm, hfresh⟩ | ⟨hperm, hfresh⟩
    · refine ⟨hperm.nodup_iff.mpr (List.nodup_cons.mpr ⟨fun hr => ?_, h.nodup⟩), fun r hr => ?_⟩
      · exact Nat.lt_irrefl _ (h.fresh _ hr)
      · rcases List.mem_cons.mp (hperm.subset hr) with rfl | hr
        · omega
        · have hlt := h.fresh r hr
          omega
    · exact ⟨hperm.nodup_iff.mpr h.nodup,
        fun r hr => Nat.lt_of_lt_of_le (h.fresh r (hperm.subset hr)) hfresh⟩
  obtain ⟨hnodup, hfresh⟩ := hrefs
  cases hm with
  | dataflow id =>
    exact ⟨hnodup, hfresh, h.other, fun c hc s hs => hplaced s (h.calls c hc s hs), hhandles,
      fun e he => hplaced _ (h.steps e he), h.siblings⟩
  | flow i hmem =>
    exact ⟨hnodup, hfresh, h.other, fun c hc s hs => hplaced s (h.calls c hc s hs), hhandles,
      fun e he => hplaced _ (h.steps e he), h.siblings⟩
  | callCore hargs henters hnew =>
    refine ⟨hnodup, hfresh, h.other, fun c hc s hs => hplaced s (h.calls c hc s hs), hhandles,
      fun e he => ?_, nodup_siblings h.siblings hnew⟩
    rcases List.mem_append.mp he with he | he
    · exact hplaced _ (h.steps e he)
    · rw [List.mem_singleton.mp he]
      exact houter henters _ List.mem_cons_self
  | call henters =>
    refine ⟨hnodup, hfresh, ?_, ?_, hhandles, fun e he => hplaced _ (h.steps e he), h.siblings⟩
    · exact List.forall_mem_cons.mpr ⟨by rw [henters.typ]; rfl, h.other⟩
    · exact List.forall_mem_cons.mpr
        ⟨houter henters, fun c hc s hs => hplaced s (h.calls c hc s hs)⟩
  | @ret out downs handles c calls hcalls hdowns hlookup hnames hnew =>
    have hc : c ∈ b.calls := hcalls ▸ List.mem_cons_self
    have hrest : ∀ c' ∈ calls, c' ∈ b.calls := fun c' hc' => hcalls ▸ List.mem_cons_of_mem _ hc'
    refine ⟨hnodup, hfresh, fun c' hc' => h.other c' (hrest c' hc'),
      fun c' hc' s hs => hplaced s (h.calls c' (hrest c' hc') s hs), hhandles, fun e he => ?_,
      nodup_siblings h.siblings hnew⟩
    rcases List.mem_append.mp he with he | he
    · exact hplaced _ (h.steps e he)
    · rw [List.mem_singleton.mp he]
      exact hplaced _ (h.calls c hc _ List.mem_cons_self)

/-! ### Ports -/

/-- A core operator takes a `Dataflow`, or it has one input port. -/
theorem ports_of_coreArgs {op : CoreOp} {is : List ℕ} {args : List Arg} {ups : List Port}
    (hargs : op.args is = some args) (hups : b.ports args = some ups) :
    ups = [] ∨ ∃ name ids, name ∉ op.downNames ∧ ups = [⟨name, ids⟩] := by
  have hone : ∀ {name : PlainId} {is : List ℕ}, b.ports [.port name is] = some ups →
      ∃ ids, ups = [⟨name, ids⟩] := by
    intro name is hports
    obtain ⟨handles, -, hports⟩ := Option.bind_eq_some_iff.mp hports
    obtain ⟨ids, -, hports⟩ := Option.bind_eq_some_iff.mp hports
    cases hports
    exact ⟨ids, rfl⟩
  unfold CoreOp.args at hargs
  split at hargs
  · cases hargs
    cases hups
    exact .inl rfl
  · cases hargs
  · cases hargs
    obtain ⟨ids, rfl⟩ := hone hups
    exact .inr ⟨_, ids, by decide, rfl⟩
  · cases hargs
    obtain ⟨ids, rfl⟩ := hone hups
    refine .inr ⟨_, ids, ?_, rfl⟩
    cases op <;> decide
  · cases hargs

theorem wellPorted_core {op : CoreOp} {is : List ℕ} {args : List Arg} {c : OperatorCall}
    {handles : List Handle} (hargs : op.args is = some args)
    (henters : b.Enters (.core op) args c handles) :
    (c.step (op.downs c.inner.substeps.parentId)).WellPorted := by
  have hdownNames : op.downNames.Nodup := by cases op <;> decide
  have hnames : (op.downs c.inner.substeps.parentId).map Port.name = op.downNames := by
    simp [CoreOp.downs, Function.comp_def]
  constructor
  · show ((c.ups ++ op.downs c.inner.substeps.parentId).map Port.name).Nodup
    rw [List.map_append, hnames]
    rcases ports_of_coreArgs hargs henters.ups with hups | ⟨name, ids, hname, hups⟩
    · rw [hups]
      exact hdownNames
    · rw [hups]
      exact List.nodup_cons.mpr ⟨hname, hdownNames⟩
  · intro op' hop'
    have htyp : c.typ = .core op' := hop'
    rw [henters.typ] at htyp
    cases htyp
    rfl

/-- Steps have well-formed ports, whatever the program does. -/
theorem Shape.wellPorted_of_moves (h : b.Shape) (hports : ∀ e ∈ b.steps, e.WellPorted)
    (hm : b.Moves action b') : ∀ e ∈ b'.steps, e.WellPorted := by
  intro e he
  cases hm with
  | dataflow id => exact hports e he
  | flow i hmem => exact hports e he
  | callCore hargs henters hnew =>
    rcases List.mem_append.mp he with he | he
    · exact hports e he
    · rw [List.mem_singleton.mp he]
      exact wellPorted_core hargs henters
  | call henters => exact hports e he
  | @ret out downs handles c calls hcalls hdowns hlookup hnames hnew =>
    rcases List.mem_append.mp he with he | he
    · exact hports e he
    · rw [List.mem_singleton.mp he]
      refine ⟨hnames, fun op hop => ?_⟩
      have hother := h.other c (hcalls ▸ List.mem_cons_self)
      have htyp : c.typ = .core op := hop
      rw [htyp] at hother
      cases hother

/-! ### Step IDs -/

/-- Lists of a `Dataflow` or of a stored step. -/
def Owned (b : Building) (s : Substeps) : Prop :=
  s.outer = none ∨ ∃ e ∈ b.steps, e.substeps = s

/-- Once all builders have returned, every list is a `Dataflow`'s or a stored step's. -/
theorem Placed.owned {s : Substeps} (h : b.Placed s) (hdone : b.calls = []) : b.Owned s := by
  cases h with
  | flow ref flowId => exact .inl rfl
  | running hc =>
    rw [hdone] at hc
    cases hc
  | stored he hcore => exact .inr ⟨_, he, rfl⟩

/-- Two steps of a list with the same ID are one. -/
theorem Shape.eq_of_stepId {e e' : OperatorStep} (h : b.Shape) (he : e ∈ b.steps)
    (he' : e' ∈ b.steps) (houter : e.outer = e'.outer) (hid : e.stepId = e'.stepId) : e = e' :=
  List.inj_on_of_nodup_map h.siblings he he' (Prod.ext houter hid)

/-- **Lists of one dataflow have different IDs**, once all builders have returned. -/
theorem Shape.eq_of_parentId {s s' : Substeps} (h : b.Shape) (hdone : b.calls = [])
    (hs : b.Owned s) (hs' : b.Owned s') (hroot : s.root = s'.root)
    (hid : s.parentId = s'.parentId) : s = s' := by
  induction s generalizing s' with
  | flow ref flowId =>
    cases s' with
    | flow ref' flowId' => exact hroot
    | step ref' outer' stepName' => exact absurd hid ne_append_period
  | step ref outer stepName ih =>
    cases s' with
    | flow ref' flowId' => exact absurd hid.symm ne_append_period
    | step ref' outer' stepName' =>
      obtain ⟨houterId, rfl⟩ := eq_of_append_period hid
      rcases hs with hs | ⟨e, he, hown⟩
      · cases hs
      rcases hs' with hs' | ⟨e', he', hown'⟩
      · cases hs'
      obtain rfl : e.outer = outer := by injection hown
      obtain rfl : e'.outer = outer' := by injection hown'
      have houter := ih ((h.steps e he).owned hdone) ((h.steps e' he').owned hdone) hroot houterId
      have hee' := h.eq_of_stepId he he' houter (by
        rw [← e.parentId_substeps, ← e'.parentId_substeps, hown, hown']
        exact hid)
      rw [← hown, ← hown', hee']

end Building
end Bytewax
