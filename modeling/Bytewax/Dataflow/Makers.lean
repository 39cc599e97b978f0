import Bytewax.Dataflow.Wired

/-!
# Bytewax.Dataflow.Makers — core steps come after the steps that make their streams

The steps of a dataflow are compiled in the order of their lists, each list where its owner stands.
Each handle's stream is made by a core step that stands before whatever is appended to the list of
the handle from now on (`Building.Made`).  So it is when the arguments of each call come from one
`Dataflow`, and the streams that a builder returns are from a scope whose way to the operator's own
scope leads out of stored steps and into steps that are not stored yet (`Building.Scoped`).
-/

namespace Bytewax
namespace Building

variable {b b' : Building} {action : BuildAction} {new : List Handle} {s : String}
  {L L' : Substeps}

/-! ### Lists with the same ID -/

/-- Lists of one `Dataflow` have different IDs. -/
def Distinct (b : Building) : Prop :=
  ∀ L L', b.Placed L → b.Placed L' → L.root = L'.root → L.parentId = L'.parentId → L = L'

theorem Shape.distinct (h : b.Shape) (hdone : b.calls = []) : b.Distinct :=
  fun _ _ hL hL' => h.eq_of_parentId hdone (hL.owned hdone) (hL'.owned hdone)

/-- **No two lists of one dataflow ever have the same ID** in a run after which all builders have
returned: of two calls with the same ID, only one could store its step. -/
theorem along_distinct {actions : List BuildAction} (h : Runs.run step init actions = some (b, new))
    (hdone : b.calls = []) : Runs.Along step (fun b _ => b.Distinct) init actions := by
  have hback : ∀ b action b₁ new, Shape b → step b action = some (b₁, new) → b₁.Distinct →
      b.Distinct := by
    intro b action b₁ new hb hstep hdistinct L L' hL hL'
    have hm := moves_of_step hstep
    exact hdistinct L L' (hb.placed_of_moves hm hL) (hb.placed_of_moves hm hL')
  refine Runs.along_of_trap (P := Shape) (T := fun b => ¬ b.Distinct) (fun b action b₁ new hb hs => ?_)
    (fun b action b₁ new hb hnot hs => ?_) (fun b action b₁ new hb hnot hs => ?_) shape_init h ?_
  · exact hb.of_moves (moves_of_step hs)
  · exact fun hdistinct => hnot (hback b action b₁ new hb hs hdistinct)
  · exact fun hdistinct => hnot (hback b action b₁ new hb hs hdistinct)
  · exact fun hnot => hnot ((shape_of_run h).1.distinct hdone)

/-! ### What is asked of a program -/

/-- The list and, while their owners are stored, the lists around it. -/
def outwards (b : Building) : Substeps → List Substeps
  | .flow ref flowId => [.flow ref flowId]
  | .step ref outer stepName => .step ref outer stepName ::
      if ∃ e ∈ b.steps, e.substeps = .step ref outer stepName then b.outwards outer else []

/-- The list and, while their owners are not stored, the lists around it. -/
def inwards (b : Building) : Substeps → List Substeps
  | .flow ref flowId => [.flow ref flowId]
  | .step ref outer stepName => .step ref outer stepName ::
      if ∃ e ∈ b.steps, e.substeps = .step ref outer stepName then [] else b.inwards outer

/-- One gets from a list to another out of stored steps and into steps that are not stored. -/
def Leads (b : Building) (L L' : Substeps) : Prop := ∃ o ∈ b.outwards L, o ∈ b.inwards L'

instance (b : Building) (L L' : Substeps) : Decidable (b.Leads L L') :=
  inferInstanceAs (Decidable (∃ o ∈ b.outwards L, o ∈ b.inwards L'))

/-- The condition on an action. -/
def Scoped (b : Building) : BuildAction → Prop
  | .callCore _ _ handles => b.OneDataflow handles
  | .call _ _ args => b.OneDataflow (args.flatMap Arg.handles)
  | .ret out => ∀ c ∈ b.calls.head?, ∀ i ∈ out.flatMap Arg.handles, ∀ h ∈ b.handles[i]?,
      h.streamId.isSome → b.Leads h.scope.substeps c.inner.substeps
  | _ => True

instance (b : Building) : (action : BuildAction) → Decidable (b.Scoped action)
  | .callCore _ _ handles => inferInstanceAs (Decidable (b.OneDataflow handles))
  | .call _ _ args => inferInstanceAs (Decidable (b.OneDataflow (args.flatMap Arg.handles)))
  | .ret out => inferInstanceAs (Decidable (∀ c ∈ b.calls.head?, ∀ i ∈ out.flatMap Arg.handles,
      ∀ h ∈ b.handles[i]?, h.streamId.isSome → b.Leads h.scope.substeps c.inner.substeps))
  | .dataflow _ => isTrue trivial
  | .flow _ => isTrue trivial

/-! ### Where streams are made -/

/-- A core step makes the stream that stands before whatever is appended to the list `L`. -/
def Made (b : Building) (s : String) (L : Substeps) : Prop :=
  ∃ x ∈ b.steps, x.typ.isCore = true ∧ s ∈ x.downIds ∧ nesting.Ready b.steps x L

theorem Made.mono (h : b.Made s L) (hsteps : b.steps <+: b'.steps) : b'.Made s L := by
  obtain ⟨x, hx, hcore, hs, hready⟩ := h
  exact ⟨x, hsteps.subset hx, hcore, hs, hready.mono hsteps⟩

/-- Into a list whose owner is not stored. -/
theorem Made.into (h : b.Made s L) (houter : L'.outer = some L)
    (hnew : ∀ e ∈ b.steps, e.substeps ≠ L') : b.Made s L' := by
  obtain ⟨x, hx, hcore, hs, hready⟩ := h
  exact ⟨x, hx, hcore, hs, .within hready List.prefix_rfl houter hnew⟩

/-- Out of a list whose owner is stored. -/
theorem Made.out {e : OperatorStep} (h : b.Made s e.substeps) (he : e ∈ b.steps) :
    b.Made s e.outer := by
  obtain ⟨x, hx, hcore, hs, hready⟩ := h
  exact ⟨x, hx, hcore, hs, .stored hready he rfl⟩

theorem Made.outwards (h : b.Made s L) (hL' : L' ∈ b.outwards L) : b.Made s L' := by
  induction L with
  | flow ref flowId =>
    rw [Building.outwards] at hL'
    rwa [List.mem_singleton.mp hL']
  | step ref outer stepName ih =>
    rw [Building.outwards] at hL'
    rcases List.mem_cons.mp hL' with rfl | hL'
    · exact h
    · split at hL'
      · next hstored =>
        obtain ⟨e, he, hown⟩ := hstored
        obtain rfl : e.outer = outer := by injection hown
        exact ih ((hown ▸ h : b.Made s e.substeps).out he) hL'
      · cases hL'

theorem Made.inwards (h : b.Made s L) (hL : L ∈ b.inwards L') : b.Made s L' := by
  induction L' with
  | flow ref flowId =>
    rw [Building.inwards] at hL
    rwa [← List.mem_singleton.mp hL]
  | step ref outer stepName ih =>
    rw [Building.inwards] at hL
    rcases List.mem_cons.mp hL with rfl | hL
    · exact h
    · split at hL
      · cases hL
      · next hnew => exact (ih hL).into rfl fun e he hown => hnew ⟨e, he, hown⟩

theorem Made.leads (h : b.Made s L) (hl : b.Leads L L') : b.Made s L' := by
  obtain ⟨o, hout, hin⟩ := hl
  exact (h.outwards hout).inwards hin

/-- What holds of streams when all actions were scoped. -/
structure Sourced (b : Building) : Prop where
  handles : ∀ h ∈ b.handles, ∀ s, h.streamId = some s → b.Made s h.scope.substeps
  steps : ∀ c ∈ b.steps, c.typ.isCore = true → ∀ s ∈ c.upIds, b.Made s c.substeps

theorem sourced_init : init.Sourced where
  handles _ h := by cases h
  steps _ h := by cases h

theorem steps_prefix_of_moves (hm : b.Moves action b') : b.steps <+: b'.steps := by
  cases hm with
  | dataflow id => exact List.prefix_rfl
  | flow i hmem => exact List.prefix_rfl
  | callCore hargs henters hnew => exact List.prefix_append _ _
  | call henters => exact List.prefix_rfl
  | ret hcalls => exact List.prefix_append _ _

/-- The list of a call is new. -/
theorem Shape.own_ne {typ : OpType} {args : List Arg} {c : OperatorCall} {handles : List Handle}
    (h : b.Shape) (henters : b.Enters typ args c handles) :
    ∀ e ∈ b.steps, e.substeps ≠ c.inner.substeps := by
  intro e he hown
  have hlt : e.ref < b.fresh := h.fresh e.ref (List.mem_append_left _ (List.mem_map_of_mem he))
  have href : e.ref = c.ref := by injection hown
  rw [href, henters.ref] at hlt
  exact Nat.lt_irrefl _ hlt

/-- Arguments of one `Dataflow` are all handles of the outer list. -/
theorem Distinct.scope_eq {typ : OpType} {args : List Arg} {c : OperatorCall}
    {handles : List Handle} {h : Handle} (hd : b.Distinct) (hb : b.Shape)
    (henters : b.Enters typ args c handles) (hone : b.OneDataflow (args.flatMap Arg.handles))
    (hh : h ∈ handles) : h.scope.substeps = c.outer.substeps := by
  obtain ⟨h₀, hh₀, houter⟩ := henters.outer
  obtain ⟨i, hi, hget⟩ := (MapM.mem_iff henters.lookup).mp hh
  obtain ⟨j, hj, hget₀⟩ := (MapM.mem_iff henters.lookup).mp hh₀
  have hmem := mem_handles_of_lookup henters.lookup hh
  have hmem₀ := mem_handles_of_lookup henters.lookup hh₀
  have hid := henters.scopes h hh
  rw [houter] at hid ⊢
  exact hd _ _ (hb.handles h hmem _ List.mem_cons_self) (hb.handles h₀ hmem₀ _ List.mem_cons_self)
    (hone i hi j hj h hget h₀ hget₀) hid

/-- The stream of an argument is made before what is appended to the list of the call. -/
theorem Sourced.made_inner {typ : OpType} {args : List Arg} {c : OperatorCall}
    {handles : List Handle} {h : Handle} (hs : b.Sourced) (hb : b.Shape) (hd : b.Distinct)
    (henters : b.Enters typ args c handles) (hone : b.OneDataflow (args.flatMap Arg.handles))
    (hh : h ∈ handles) (hid : h.streamId = some s) : b.Made s c.inner.substeps := by
  have hmade := hs.handles h (mem_handles_of_lookup henters.lookup hh) s hid
  rw [hd.scope_eq hb henters hone hh] at hmade
  exact hmade.into rfl (hb.own_ne henters)

/-- **Streams stay made before their use** when an action is scoped. -/
theorem Sourced.of_moves (h : b.Sourced) (hb : b.Shape) (hd : b.Distinct) (hscoped : b.Scoped action)
    (hm : b.Moves action b') : b'.Sourced := by
  have hprefix := steps_prefix_of_moves hm
  have hhandles : ∀ h' ∈ b.handles, ∀ s, h'.streamId = some s → b'.Made s h'.scope.substeps :=
    fun h' hh' s hs => (h.handles h' hh' s hs).mono hprefix
  have hsteps : ∀ c ∈ b.steps, c.typ.isCore = true → ∀ s ∈ c.upIds, b'.Made s c.substeps :=
    fun c hc hcore s hs => (h.steps c hc hcore s hs).mono hprefix
  cases hm with
  | dataflow id =>
    refine ⟨fun h' hh' s hs => (List.mem_append.mp hh').elim (hhandles h' · s hs) fun hnew => ?_,
      hsteps⟩
    rw [List.mem_singleton.mp hnew] at hs
    cases hs
  | flow i hmem =>
    refine ⟨fun h' hh' s hs => (List.mem_append.mp hh').elim (hhandles h' · s hs) fun hnew => ?_,
      hsteps⟩
    rw [List.mem_singleton.mp hnew] at hs
    cases hs
  | @callCore op is args c handles hargs henters hnew =>
    have hone : b.OneDataflow (args.flatMap Arg.handles) := by
      rw [CoreOp.handles_args hargs]
      exact hscoped
    refine ⟨fun h' hh' s hs => (List.mem_append.mp hh').elim (hhandles h' · s hs) fun hmem => ?_,
      fun c' hc' hcore s hs => ?_⟩
    · obtain ⟨id, hid, rfl⟩ := List.mem_map.mp hmem
      cases hs
      have hstep := List.mem_append_right b.steps (List.mem_singleton_self
        (c.step (op.downs c.inner.substeps.parentId)))
      have hcore : c.typ.isCore = true := by rw [henters.typ]; rfl
      exact ⟨_, hstep, hcore, hid, .inside hstep rfl⟩
    · rcases List.mem_append.mp hc' with hc' | hc'
      · exact hsteps c' hc' hcore s hs
      · rw [List.mem_singleton.mp hc'] at hs ⊢
        obtain ⟨h₀, hh₀, hid⟩ := exists_handle_of_mem_ports henters.ups henters.lookup hs
        exact (h.made_inner hb hd henters hone hh₀ hid).mono hprefix
  | @call opType args c handles henters =>
    refine ⟨fun h' hh' s hs => (List.mem_append.mp hh').elim (hhandles h' · s hs) fun hmem => ?_,
      hsteps⟩
    obtain ⟨h₀, hh₀, rfl⟩ := List.mem_map.mp hmem
    exact (h.made_inner hb hd henters hscoped hh₀ hs).mono hprefix
  | @ret out downs handles c calls hcalls hdowns hlookup hnames hnew =>
    refine ⟨fun h' hh' s hs => (List.mem_append.mp hh').elim (hhandles h' · s hs) fun hmem => ?_,
      fun c' hc' hcore s hs => ?_⟩
    · obtain ⟨h₀, hh₀, rfl⟩ := List.mem_map.mp hmem
      have hid : h₀.streamId = some s := hs
      obtain ⟨i, hi, hget⟩ := (MapM.mem_iff hlookup).mp hh₀
      have hleads := hscoped c (by rw [hcalls]; rfl) i hi h₀ hget (by rw [hid]; rfl)
      have hmade := (h.handles h₀ (List.mem_of_getElem? hget) s hid).leads hleads
      have hinner := hmade.mono hprefix
      exact hinner.out (e := c.step downs) (List.mem_append_right _ (List.mem_singleton_self _))
    · rcases List.mem_append.mp hc' with hc' | hc'
      · exact hsteps c' hc' hcore s hs
      · rw [List.mem_singleton.mp hc'] at hcore
        have hother : c.typ.isCore = false := hb.other c (hcalls ▸ List.mem_cons_self)
        have htyp : c.typ.isCore = true := hcore
        rw [hother] at htyp
        cases htyp

end Building
end Bytewax
