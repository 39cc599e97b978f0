import Bytewax.Dataflow.Visible

/-!
# Bytewax.Dataflow.Wired — built dataflows

What holds of the steps once all builders have returned.
-/

namespace Bytewax
namespace Building

variable {b : Building}

/-- What holds of the steps of built dataflows, whatever the program does. -/
structure Built (b : Building) : Prop where
  complete : nesting.Complete b.steps
  stepId : ∀ e ∈ b.steps, ∀ e' ∈ b.steps,
    e.outer.root = e'.outer.root → e.stepId = e'.stepId → e = e'
  ports : ∀ e ∈ b.steps, e.WellPorted
  leaf : ∀ e ∈ b.steps, e.typ.isCore → b.substepsOf e.substeps = []

/-- Where the streams of a built dataflow come from. -/
structure Wired (b : Building) : Prop extends Built b where
  ups : ∀ pre e post, b.steps = pre ++ e :: post → ∀ s ∈ e.upIds,
    MadeIn pre s e.outer ∨ ∃ o ∈ b.steps, o.substeps = e.outer ∧ s ∈ o.upIds
  downs : ∀ e ∈ b.steps, e.typ.isCore = false → ∀ s ∈ e.downIds,
    b.substepsOf e.substeps ≠ [] ∧ (MadeIn b.steps s e.substeps ∨ s ∈ e.upIds)

theorem mem_substepsOf {e : OperatorStep} {L : Substeps} :
    e ∈ b.substepsOf L ↔ e ∈ b.steps ∧ e.outer = L := by
  simp [substepsOf]

theorem Shape.ref_inj {e e' : OperatorStep} (h : b.Shape) (he : e ∈ b.steps) (he' : e' ∈ b.steps)
    (href : e.ref = e'.ref) : e = e' :=
  List.inj_on_of_nodup_map (List.nodup_append.mp h.nodup).1 he he' href

theorem Shape.complete (h : b.Shape) (hdone : b.calls = []) : nesting.Complete b.steps where
  nodup := by
    have hrefs : (b.steps.map OperatorStep.ref).Nodup := (List.nodup_append.mp h.nodup).1
    refine (List.Nodup.of_map _ hrefs).map_on fun e he e' he' hown => ?_
    refine h.ref_inj he he' ?_
    injection hown
  owned {e s o} he hs ho := by
    have hplaced : b.Placed s := by
      cases hs
      exact h.steps e he
    rcases hplaced.owned hdone with hnone | howned
    · have hno : s.outer = some o := ho
      rw [hnone] at hno
      cases hno
    · exact howned

theorem Shape.built (h : b.Shape) (hports : ∀ e ∈ b.steps, e.WellPorted) (hdone : b.calls = []) :
    b.Built where
  complete := h.complete hdone
  stepId e he e' he' hroot hid := by
    have hown : e.substeps = e'.substeps :=
      h.eq_of_parentId hdone (.inr ⟨e, he, rfl⟩) (.inr ⟨e', he', rfl⟩) hroot hid
    exact (h.complete hdone).own_inj he he' hown
  ports := hports
  leaf e he hcore := by
    refine List.eq_nil_iff_forall_not_mem.mpr fun e' he' => ?_
    obtain ⟨he', houter⟩ := mem_substepsOf.mp he'
    have hplaced := h.steps e' he'
    rw [houter] at hplaced
    generalize hs : e.substeps = s at hplaced
    cases hplaced with
    | flow ref flowId => cases hs
    | running hc =>
      rw [hdone] at hc
      cases hc
    | @stored e'' he'' hother =>
      have href : e.ref = e''.ref := by injection hs
      rw [h.ref_inj he he'' href, hother] at hcore
      cases hcore

/-- A list that has the ID of a list is that list. -/
theorem Views.eq {steps : List OperatorStep} {s : String} {e : OperatorStep}
    (h : b.Views steps s e.outer) (hb : b.Shape) (hdone : b.calls = []) (he : e ∈ b.steps) :
    MadeIn steps s e.outer ∨ ∃ o ∈ b.steps, o.substeps = e.outer ∧ s ∈ o.upIds := by
  obtain ⟨L, hplaced, hroot, hid, hs⟩ := h
  obtain rfl : L = e.outer :=
    hb.eq_of_parentId hdone (hplaced.owned hdone) ((hb.steps e he).owned hdone) hroot hid
  refine hs.imp_right fun hinput => hinput.resolve_right ?_
  rintro ⟨c, hc, -⟩
  rw [hdone] at hc
  cases hc

theorem Seen.wired (h : b.Seen) (hb : b.Shape) (hports : ∀ e ∈ b.steps, e.WellPorted)
    (hdone : b.calls = []) : b.Wired where
  toBuilt := hb.built hports hdone
  ups pre e post heq s hs := by
    have he : e ∈ b.steps := heq ▸ List.mem_append_right _ List.mem_cons_self
    exact (h.steps pre e post heq s hs).eq hb hdone he
  downs e he hcore s hs := by
    have hne : ∀ e' ∈ b.steps, e'.outer = e.substeps → b.substepsOf e.substeps ≠ [] :=
      fun e' he' ho => List.ne_nil_of_mem (mem_substepsOf.mpr ⟨he', ho⟩)
    rcases h.downs e he hcore s hs with hmade | ⟨hup, e', he', ho⟩
    · obtain ⟨e', he', ho, -⟩ := id hmade
      exact ⟨hne e' he' ho, .inl hmade⟩
    · exact ⟨hne e' he' ho, .inr hup⟩

/-! ### Over runs -/

variable {actions : List BuildAction} {new : List Handle}

/-- **Runs keep the shape of scopes and ports.** -/
theorem shape_of_run (h : Runs.run step init actions = some (b, new)) :
    b.Shape ∧ ∀ e ∈ b.steps, e.WellPorted := by
  refine Runs.run_induct (P := fun b => b.Shape ∧ ∀ e ∈ b.steps, e.WellPorted)
    (fun b action b' new hb _ hs => ?_) ⟨shape_init, fun e he => by cases he⟩
    (Runs.along_true init actions) h
  have hm := moves_of_step hs
  exact ⟨hb.1.of_moves hm, hb.1.wellPorted_of_moves hb.2 hm⟩

theorem built_of_run (h : Runs.run step init actions = some (b, new)) (hdone : b.calls = []) :
    b.Built := by
  obtain ⟨hb, hports⟩ := shape_of_run h
  exact hb.built hports hdone

/-- **Sound runs build wired dataflows.** -/
theorem wired_of_run (hsound : Runs.Along step Sound init actions)
    (h : Runs.run step init actions = some (b, new)) (hdone : b.calls = []) : b.Wired := by
  obtain ⟨hb, hports⟩ := shape_of_run h
  have hseen : b.Shape ∧ b.Seen := by
    refine Runs.run_induct (P := fun b => b.Shape ∧ b.Seen) (fun b action b' new hb hs hstep => ?_)
      ⟨shape_init, seen_init⟩ hsound h
    have hm := moves_of_step hstep
    exact ⟨hb.1.of_moves hm, hb.2.of_moves hb.1 hs hm⟩
  exact hseen.2.wired hb hports hdone

end Building
end Bytewax
