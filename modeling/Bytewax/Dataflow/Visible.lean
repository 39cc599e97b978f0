import Bytewax.Dataflow.Scopes

/-!
# Bytewax.Dataflow.Visible — where the streams of a list come from

A stream that is used in a list of substeps is on an output port of a step that was appended to the
list before, or on an input port of the step that owns the list.  So it is when the arguments of
each call come from one `Dataflow`, streams are passed in annotated parameters, and each stream that
a builder returns is on an output port of a substep, or on an input port of its operator and there
is a substep (`Building.Sound`).
-/

namespace Bytewax
namespace Building

variable {b b' : Building} {action : BuildAction} {new : List Handle} {s : String} {L : Substeps}

/-! ### Streams of ports -/

/-- `Dataflow`s alone are arguments or returned values without a port. -/
def Annotated (b : Building) (args : List Arg) : Prop :=
  ∀ arg ∈ args, ∀ i ∈ arg.other?, ∀ h ∈ b.handles[i]?, h.streamId = none

theorem mem_ports {args : List Arg} {ports : List Port} (hp : b.ports args = some ports) :
    s ∈ ports.flatMap Port.streamIds ↔ ∃ name is, .port name is ∈ args ∧
      ∃ i ∈ is, ∃ h, b.handles[i]? = some h ∧ h.streamId = some s := by
  induction args generalizing ports with
  | nil =>
    cases hp
    simp
  | cons arg args ih =>
    cases arg with
    | other i => simpa using ih hp
    | port name is =>
      obtain ⟨handles, hlookup, hp⟩ := Option.bind_eq_some_iff.mp hp
      obtain ⟨ids, hids, hp⟩ := Option.bind_eq_some_iff.mp hp
      obtain ⟨ports', hports, hp⟩ := Option.bind_eq_some_iff.mp hp
      cases hp
      have hhead : s ∈ ids ↔ ∃ i ∈ is, ∃ h, b.handles[i]? = some h ∧ h.streamId = some s := by
        rw [MapM.mem_iff hids]
        constructor
        · rintro ⟨h, hmem, hs⟩
          obtain ⟨i, hi, hget⟩ := (MapM.mem_iff hlookup).mp hmem
          exact ⟨i, hi, h, hget, hs⟩
        · rintro ⟨i, hi, h, hget, hs⟩
          exact ⟨h, (MapM.mem_iff hlookup).mpr ⟨i, hi, hget⟩, hs⟩
      rw [List.flatMap_cons, List.mem_append, hhead, ih hports]
      constructor
      · rintro (hs | ⟨name', is', hmem, hs⟩)
        · exact ⟨name, is, List.mem_cons_self, hs⟩
        · exact ⟨name', is', List.mem_cons_of_mem _ hmem, hs⟩
      · rintro ⟨name', is', hmem, hs⟩
        rcases List.mem_cons.mp hmem with heq | hmem
        · cases heq
          exact .inl hs
        · exact .inr ⟨name', is', hmem, hs⟩

/-- The streams of ports are those of handles. -/
theorem exists_handle_of_mem_ports {args : List Arg} {ports : List Port} {handles : List Handle}
    (hp : b.ports args = some ports) (hl : b.lookup (args.flatMap Arg.handles) = some handles)
    (hs : s ∈ ports.flatMap Port.streamIds) : ∃ h ∈ handles, h.streamId = some s := by
  obtain ⟨name, is, hmem, i, hi, h, hget, hs⟩ := (mem_ports hp).mp hs
  exact ⟨h, (MapM.mem_iff hl).mpr ⟨i, List.mem_flatMap.mpr ⟨_, hmem, hi⟩, hget⟩, hs⟩

/-- The stream of a handle is on a port. -/
theorem mem_ports_of_annotated {args : List Arg} {ports : List Port} {handles : List Handle}
    {h : Handle} (hp : b.ports args = some ports)
    (hl : b.lookup (args.flatMap Arg.handles) = some handles) (hann : b.Annotated args)
    (hh : h ∈ handles) (hs : h.streamId = some s) : s ∈ ports.flatMap Port.streamIds := by
  obtain ⟨i, hi, hget⟩ := (MapM.mem_iff hl).mp hh
  obtain ⟨arg, harg, hi⟩ := List.mem_flatMap.mp hi
  cases arg with
  | port name is => exact (mem_ports hp).mpr ⟨name, is, harg, i, hi, h, hget, hs⟩
  | other j =>
    rw [List.mem_singleton.mp hi] at hget
    rw [hann _ harg j rfl h hget] at hs
    cases hs

/-! ### Streams in a list -/

/-- The stream is on an output port of one of these steps, in the list `L`. -/
def MadeIn (steps : List OperatorStep) (s : String) (L : Substeps) : Prop :=
  ∃ e ∈ steps, e.outer = L ∧ s ∈ e.downIds

/-- The stream is on an input port of the step or the call that owns the list `L`. -/
def InputOf (b : Building) (s : String) (L : Substeps) : Prop :=
  (∃ e ∈ b.steps, e.substeps = L ∧ s ∈ e.upIds) ∨ ∃ c ∈ b.calls, c.inner.substeps = L ∧ s ∈ c.upIds

/-- The stream is in a list with the ID of `L`, in the same `Dataflow`, when these steps have been
appended. -/
def Views (b : Building) (steps : List OperatorStep) (s : String) (L : Substeps) : Prop :=
  ∃ L', b.Placed L' ∧ L'.root = L.root ∧ L'.parentId = L.parentId ∧
    (MadeIn steps s L' ∨ b.InputOf s L')

theorem MadeIn.mono {steps steps' : List OperatorStep} (h : MadeIn steps s L)
    (hsub : steps ⊆ steps') : MadeIn steps' s L := by
  obtain ⟨e, he, ho, hs⟩ := h
  exact ⟨e, hsub he, ho, hs⟩

theorem InputOf.of_moves (h : b.InputOf s L) (hm : b.Moves action b') : b'.InputOf s L := by
  cases hm with
  | dataflow id => exact h
  | flow i hmem => exact h
  | callCore hargs henters hnew =>
    refine h.imp_left fun ⟨e, he, hown, hs⟩ => ⟨e, List.mem_append_left _ he, hown, hs⟩
  | call henters =>
    exact h.imp_right fun ⟨c, hc, hown, hs⟩ => ⟨c, List.mem_cons_of_mem _ hc, hown, hs⟩
  | @ret out downs handles c calls hcalls =>
    rcases h with ⟨e, he, hown, hs⟩ | ⟨c', hc', hown, hs⟩
    · exact .inl ⟨e, List.mem_append_left _ he, hown, hs⟩
    · rw [hcalls] at hc'
      rcases List.mem_cons.mp hc' with rfl | hc'
      · exact .inl ⟨c'.step downs, List.mem_append_right _ (List.mem_singleton_self _), hown, hs⟩
      · exact .inr ⟨c', hc', hown, hs⟩

theorem steps_subset_of_moves (hm : b.Moves action b') : b.steps ⊆ b'.steps := by
  cases hm with
  | dataflow id => exact List.Subset.refl _
  | flow i hmem => exact List.Subset.refl _
  | callCore hargs henters hnew => exact List.subset_append_left _ _
  | call henters => exact List.Subset.refl _
  | ret hcalls => exact List.subset_append_left _ _

theorem Views.of_moves {steps steps' : List OperatorStep} (h : b.Views steps s L) (hb : b.Shape)
    (hm : b.Moves action b') (hsub : steps ⊆ steps') : b'.Views steps' s L := by
  obtain ⟨L', hplaced, hroot, hid, hs⟩ := h
  exact ⟨L', hb.placed_of_moves hm hplaced, hroot, hid,
    hs.imp (fun hs => hs.mono hsub) fun hs => hs.of_moves hm⟩

/-! ### What is asked of a program -/

/-- All handles are of one `Dataflow`. -/
def OneDataflow (b : Building) (handles : List ℕ) : Prop :=
  ∀ i ∈ handles, ∀ j ∈ handles, ∀ h ∈ b.handles[i]?, ∀ h' ∈ b.handles[j]?,
    h.scope.substeps.root = h'.scope.substeps.root

/-- A stream that a builder returns is on an output port of a substep, or it is on an input port and
there is a substep. -/
def Returns (b : Building) (c : OperatorCall) (s : String) : Prop :=
  MadeIn b.steps s c.inner.substeps ∨ (s ∈ c.upIds ∧ ∃ e ∈ b.steps, e.outer = c.inner.substeps)

/-- The condition on an action. -/
def Sound (b : Building) : BuildAction → Prop
  | .callCore _ _ handles => b.OneDataflow handles
  | .call _ _ args => b.OneDataflow (args.flatMap Arg.handles) ∧ b.Annotated args
  | .ret out => b.Annotated out ∧ ∀ c ∈ b.calls.head?, ∀ downs ∈ b.ports out,
      ∀ s ∈ downs.flatMap Port.streamIds, b.Returns c s
  | _ => True

instance (steps : List OperatorStep) : Decidable (MadeIn steps s L) :=
  inferInstanceAs (Decidable (∃ e ∈ steps, e.outer = L ∧ s ∈ e.downIds))

instance (b : Building) (args : List Arg) : Decidable (b.Annotated args) :=
  inferInstanceAs (Decidable (∀ arg ∈ args, ∀ i ∈ arg.other?,
    ∀ h ∈ b.handles[i]?, h.streamId = none))

instance (b : Building) (handles : List ℕ) : Decidable (b.OneDataflow handles) :=
  inferInstanceAs (Decidable (∀ i ∈ handles, ∀ j ∈ handles, ∀ h ∈ b.handles[i]?,
    ∀ h' ∈ b.handles[j]?, h.scope.substeps.root = h'.scope.substeps.root))

instance (b : Building) (c : OperatorCall) : Decidable (b.Returns c s) :=
  inferInstanceAs (Decidable (MadeIn b.steps s c.inner.substeps ∨
    (s ∈ c.upIds ∧ ∃ e ∈ b.steps, e.outer = c.inner.substeps)))

instance (b : Building) : (action : BuildAction) → Decidable (b.Sound action)
  | .callCore _ _ handles => inferInstanceAs (Decidable (b.OneDataflow handles))
  | .call _ _ args =>
    inferInstanceAs (Decidable (b.OneDataflow (args.flatMap Arg.handles) ∧ b.Annotated args))
  | .ret out => inferInstanceAs (Decidable (b.Annotated out ∧ ∀ c ∈ b.calls.head?,
      ∀ downs ∈ b.ports out, ∀ s ∈ downs.flatMap Port.streamIds, b.Returns c s))
  | .dataflow _ => isTrue trivial
  | .flow _ => isTrue trivial

/-- What holds of streams when all actions were sound. -/
structure Seen (b : Building) : Prop where
  handles : ∀ h ∈ b.handles, ∀ s, h.streamId = some s →
    MadeIn b.steps s h.scope.substeps ∨ b.InputOf s h.scope.substeps
  calls : ∀ c ∈ b.calls, ∀ s ∈ c.upIds, b.Views b.steps s c.outer.substeps
  steps : ∀ pre e post, b.steps = pre ++ e :: post → ∀ s ∈ e.upIds, b.Views pre s e.outer
  downs : ∀ e ∈ b.steps, e.typ.isCore = false → ∀ s ∈ e.downIds,
    MadeIn b.steps s e.substeps ∨ (s ∈ e.upIds ∧ ∃ e' ∈ b.steps, e'.outer = e.substeps)

theorem seen_init : init.Seen where
  handles _ h := by cases h
  calls _ h := by cases h
  steps pre e post h := by
    cases pre <;> cases h
  downs _ h := by cases h

/-- The streams of the arguments of a call are in lists with the ID of its outer list. -/
theorem Seen.views_of_enters {typ : OpType} {args : List Arg} {c : OperatorCall}
    {handles : List Handle} (h : b.Seen) (hb : b.Shape) (henters : b.Enters typ args c handles)
    (hone : b.OneDataflow (args.flatMap Arg.handles)) (hs : s ∈ c.upIds) :
    b.Views b.steps s c.outer.substeps := by
  obtain ⟨h₀, hh₀, houter⟩ := henters.outer
  obtain ⟨h₁, hh₁, hs⟩ := exists_handle_of_mem_ports henters.ups henters.lookup hs
  have hmem := mem_handles_of_lookup henters.lookup hh₁
  refine ⟨h₁.scope.substeps, hb.handles h₁ hmem _ List.mem_cons_self, ?_, henters.scopes h₁ hh₁,
    h.handles h₁ hmem s hs⟩
  obtain ⟨i, hi, hget₁⟩ := (MapM.mem_iff henters.lookup).mp hh₁
  obtain ⟨j, hj, hget₀⟩ := (MapM.mem_iff henters.lookup).mp hh₀
  rw [houter]
  exact hone i hi j hj h₁ hget₁ h₀ hget₀

/-- Streams stay in the lists they are in. -/
theorem Seen.old_handle {h' : Handle} (h : b.Seen) (hm : b.Moves action b') (hh : h' ∈ b.handles)
    (hs : h'.streamId = some s) :
    MadeIn b'.steps s h'.scope.substeps ∨ b'.InputOf s h'.scope.substeps :=
  (h.handles h' hh s hs).imp (fun hmade => hmade.mono (steps_subset_of_moves hm))
    fun hinput => hinput.of_moves hm

/-- The streams of the handles after an action. -/
theorem Seen.handles_of_moves (h : b.Seen) (hsound : b.Sound action) (hm : b.Moves action b') :
    ∀ h' ∈ b'.handles, ∀ s, h'.streamId = some s →
      MadeIn b'.steps s h'.scope.substeps ∨ b'.InputOf s h'.scope.substeps := by
  intro h' hh' s hs
  have hold : h' ∈ b.handles →
      MadeIn b'.steps s h'.scope.substeps ∨ b'.InputOf s h'.scope.substeps :=
    fun hh => h.old_handle hm hh hs
  cases hm with
  | dataflow id =>
    refine (List.mem_append.mp hh').elim hold fun hnew => ?_
    rw [List.mem_singleton.mp hnew] at hs
    cases hs
  | flow i hmem =>
    refine (List.mem_append.mp hh').elim hold fun hnew => ?_
    rw [List.mem_singleton.mp hnew] at hs
    cases hs
  | callCore hargs henters hnew =>
    refine (List.mem_append.mp hh').elim hold fun hmem => ?_
    obtain ⟨id, hid, rfl⟩ := List.mem_map.mp hmem
    cases hs
    exact .inl ⟨_, List.mem_append_right _ (List.mem_singleton_self _), rfl, hid⟩
  | @call opType args c handles henters =>
    refine (List.mem_append.mp hh').elim hold fun hmem => ?_
    obtain ⟨h₀, hh₀, rfl⟩ := List.mem_map.mp hmem
    have hup : s ∈ c.upIds := mem_ports_of_annotated henters.ups henters.lookup hsound.2 hh₀ hs
    exact .inr (.inr ⟨c, List.mem_cons_self, rfl, hup⟩)
  | @ret out downs handles c calls hcalls hdowns hlookup =>
    refine (List.mem_append.mp hh').elim hold fun hmem => ?_
    obtain ⟨h₀, hh₀, rfl⟩ := List.mem_map.mp hmem
    have hdown : s ∈ (c.step downs).downIds :=
      mem_ports_of_annotated hdowns hlookup hsound.1 hh₀ hs
    exact .inl ⟨c.step downs, List.mem_append_right _ (List.mem_singleton_self _), rfl, hdown⟩

/-- The steps after an action that appends a step. -/
theorem Seen.steps_of_append {e₀ : OperatorStep} (h : b.Seen) (hb : b.Shape)
    (hm : b.Moves action b') (hsteps : b'.steps = b.steps ++ [e₀])
    (hups : ∀ s ∈ e₀.upIds, b.Views b.steps s e₀.outer) :
    ∀ pre e post, b'.steps = pre ++ e :: post → ∀ s ∈ e.upIds, b'.Views pre s e.outer := by
  intro pre e post heq s hs
  rw [hsteps] at heq
  rcases Runs.split_concat heq with ⟨rfl, rfl, -⟩ | ⟨post', -, hold⟩
  · exact (hups s hs).of_moves hb hm (List.Subset.refl _)
  · exact (h.steps pre e post' hold s hs).of_moves hb hm (List.Subset.refl _)

/-- Streams that a step of another operator puts out stay where they are. -/
theorem Seen.old_downs {e : OperatorStep} (h : b.Seen) (hm : b.Moves action b') (he : e ∈ b.steps)
    (hcore : e.typ.isCore = false) (hs : s ∈ e.downIds) : MadeIn b'.steps s e.substeps ∨
      (s ∈ e.upIds ∧ ∃ e' ∈ b'.steps, e'.outer = e.substeps) := by
  have hsub := steps_subset_of_moves hm
  exact (h.downs e he hcore s hs).imp (fun hmade => hmade.mono hsub)
    fun ⟨hup, e', he', ho⟩ => ⟨hup, e', hsub he', ho⟩

/-- **Streams stay visible** when an action is sound. -/
theorem Seen.of_moves (h : b.Seen) (hb : b.Shape) (hsound : b.Sound action)
    (hm : b.Moves action b') : b'.Seen := by
  have hhandles := h.handles_of_moves hsound hm
  have hcalls : ∀ c ∈ b.calls, ∀ s ∈ c.upIds, b'.Views b'.steps s c.outer.substeps :=
    fun c hc s hs => (h.calls c hc s hs).of_moves hb hm (steps_subset_of_moves hm)
  have hsteps : ∀ pre e post, b.steps = pre ++ e :: post → ∀ s ∈ e.upIds, b'.Views pre s e.outer :=
    fun pre e post heq s hs => (h.steps pre e post heq s hs).of_moves hb hm (List.Subset.refl _)
  have hdowns : ∀ e ∈ b.steps, e.typ.isCore = false → ∀ s ∈ e.downIds,
      MadeIn b'.steps s e.substeps ∨ (s ∈ e.upIds ∧ ∃ e' ∈ b'.steps, e'.outer = e.substeps) :=
    fun e he hcore s hs => h.old_downs hm he hcore hs
  have happend : ∀ {e₀ : OperatorStep}, b'.steps = b.steps ++ [e₀] →
      (∀ s ∈ e₀.upIds, b.Views b.steps s e₀.outer) →
      ∀ pre e post, b'.steps = pre ++ e :: post → ∀ s ∈ e.upIds, b'.Views pre s e.outer :=
    fun heq hups => h.steps_of_append hb hm heq hups
  cases hm with
  | dataflow id => exact ⟨hhandles, hcalls, hsteps, hdowns⟩
  | flow i hmem => exact ⟨hhandles, hcalls, hsteps, hdowns⟩
  | @callCore op is args c handles hargs henters hnew =>
    have hone : b.OneDataflow (args.flatMap Arg.handles) := by
      rw [CoreOp.handles_args hargs]
      exact hsound
    refine ⟨hhandles, hcalls, happend rfl fun s hs => h.views_of_enters hb henters hone hs,
      fun e he hcore => ?_⟩
    rcases List.mem_append.mp he with he | he
    · exact hdowns e he hcore
    · rw [List.mem_singleton.mp he] at hcore
      have htyp : c.typ.isCore = false := hcore
      rw [henters.typ] at htyp
      cases htyp
  | @call opType args c handles henters =>
    refine ⟨hhandles, List.forall_mem_cons.mpr ⟨fun s hs => ?_, hcalls⟩, hsteps, hdowns⟩
    have hviews := h.views_of_enters hb henters hsound.1 hs
    exact hviews.of_moves hb (.call henters) (List.Subset.refl _)
  | @ret out downs handles c calls hcs hports hlookup hnames hnew =>
    have hc : c ∈ b.calls := hcs ▸ List.mem_cons_self
    refine ⟨hhandles, fun c' hc' => hcalls c' (hcs ▸ List.mem_cons_of_mem _ hc'),
      happend rfl fun s hs => h.calls c hc s hs, fun e he hcore s hs => ?_⟩
    rcases List.mem_append.mp he with he | he
    · exact hdowns e he hcore s hs
    · rw [List.mem_singleton.mp he] at hs ⊢
      have hret := hsound.2 c (by rw [hcs]; rfl) downs hports s hs
      exact hret.imp (fun hmade => hmade.mono (List.subset_append_left _ _))
        fun ⟨hup, e', he', ho⟩ => ⟨hup, e', List.mem_append_left _ he', ho⟩

end Building
end Bytewax
