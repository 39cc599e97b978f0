import Bytewax.Dataflow.Links

/-!
# Bytewax.Dataflow.Rendered — the links of a rendered dataflow

`to_rendered` gives the output ports of a step their links only if the step has substeps, as core
operators have none.  The output port of another operator without substeps, which returns one of its
input streams, has no link either, so that links through it end there.  In every run in which each
operator that returns a stream has a substep, and streams only pass through the ports of operators
of one `Dataflow`, links lead to the core steps that make the streams.
-/

namespace Bytewax

/-! ### IDs of ports -/

theorem OperatorStep.WellPorted.nodup_portIds {e : OperatorStep} (h : e.WellPorted) :
    e.portIds.Nodup := by
  have hmap : e.portIds = ((e.ups ++ e.downs).map Port.name).map
      fun name => e.stepId ++ "." ++ name.id := by
    rw [portIds, ← List.map_append, List.map_map]
    rfl
  rw [hmap]
  exact h.names.map fun name name' heq => (eq_of_append_period heq).2

theorem OperatorStep.stepId_eq_of_portId {e e' : OperatorStep} {p : String} (h : p ∈ e.portIds)
    (h' : p ∈ e'.portIds) : e.stepId = e'.stepId := by
  rw [portIds, ← List.map_append] at h h'
  obtain ⟨port, -, rfl⟩ := List.mem_map.mp h
  obtain ⟨port', -, heq⟩ := List.mem_map.mp h'
  exact (eq_of_append_period heq).1.symm

namespace Building

variable {b : Building} {actions : List BuildAction} {new : List Handle}

theorem root_of_mem_preorder {L : Substeps} {e : OperatorStep}
    (h : e ∈ nesting.preorder b.steps L) : e ∈ b.steps ∧ e.outer.root = L.root := by
  obtain ⟨he, o, ho, haround⟩ := Nesting.around_of_mem_preorder h
  have houter : e.outer = o := Option.some.inj ho
  exact ⟨he, houter ▸ root_eq_of_around haround⟩

/-- A port ID names one port of a dataflow. -/
theorem Built.nodup_portIds (hb : b.Built) (L : Substeps) :
    ((nesting.preorder b.steps L).flatMap OperatorStep.portIds).Nodup := by
  refine List.nodup_flatMap.mpr ⟨fun e he => ?_, ?_⟩
  · exact (hb.ports e (root_of_mem_preorder he).1).nodup_portIds
  · have hnodup := Nesting.preorder_nodup hb.complete.nodup L
    refine hnodup.pairwise_of_forall_ne fun e he e' he' hne => ?_
    obtain ⟨hmem, hroot⟩ := root_of_mem_preorder he
    obtain ⟨hmem', hroot'⟩ := root_of_mem_preorder he'
    refine fun p hp hp' => hne (hb.stepId e hmem e' hmem' (hroot.trans hroot'.symm) ?_)
    exact OperatorStep.stepId_eq_of_portId hp hp'

/-! ### Rendered dataflows -/

/-- The ports of the rendered `Dataflow` have different IDs, and from each input port of each core
step the links of each stream lead to the output port of the core step that makes the stream. -/
structure Resolves (b : Building) (flow : Substeps) (r : RenderedDataflow) : Prop where
  nodup : (r.ports.map RenderedPort.portId).Nodup
  origin : ∀ e ∈ b.steps, e.outer.root = flow → e.typ.isCore = true →
    ∀ port ∈ e.ups, ∀ s ∈ port.streamIds, b.Origin flow r.ports s (e.portId port)

theorem Wired.resolves (hw : b.Wired) (ref : ℕ) (flowId : PlainId) :
    ∃ r, b.toRendered ref flowId = some r ∧ b.Resolves (.flow ref flowId) r := by
  have hrender : ∀ e ∈ b.substepsOf (.flow ref flowId), ∀ m : ChainMap String String,
      (∀ s ∈ e.upIds, (m.map.get? s).isSome) →
      ∃ r, b.toRenderedStep b.depth e m = some (r, m.update (e.portEntries e.downs)) ∧
        b.Renders (.flow ref flowId) [e] m (m.update (e.portEntries e.downs)) r.ports := by
    intro e he m hm
    obtain ⟨hmem, houter⟩ := mem_substepsOf.mp he
    refine toRenderedStep_spec hw b.depth hmem (by rw [houter]; rfl) ?_ hm
    exact Nat.lt_add_of_pos_right (Nat.succ_pos _)
  have hempty : ∀ s, MadeIn [] s (.flow ref flowId) ∨ b.InputTo s (.flow ref flowId) →
      ((ChainMap.empty : ChainMap String String).map.get? s).isSome := by
    rintro s (⟨e, he, -⟩ | ⟨o, -, hown, -⟩)
    · cases he
    · cases hown
  obtain ⟨rs, m', hrs, -, -, hids, htraced⟩ :=
    renderAll_spec hw hrender [] (b.substepsOf (.flow ref flowId)) .empty rfl hempty
  rw [below_substepsOf] at hids htraced
  have hnodup : ((portsAll rs).map RenderedPort.portId).Nodup := by
    rw [hids]
    exact hw.nodup_portIds _
  refine ⟨⟨flowId.id, rs⟩, by rw [toRendered, hrs]; rfl, hnodup, fun e he hroot _ => ?_⟩
  have hmem : e ∈ nesting.preorder b.steps (.flow ref flowId) := by
    refine hw.complete.mem_preorder he rfl ?_
    rw [← hroot]
    exact around_root e.outer
  exact (htraced (portsAll rs) hnodup (List.Subset.refl _) (traced_empty _)).2 e hmem

/-- **Rendered links lead to the origins of streams** in every dataflow built by a run whose actions
are all sound. -/
theorem toRendered_resolves (hsound : Runs.Along step Sound init actions)
    (h : Runs.run step init actions = some (b, new)) (hdone : b.calls = []) (ref : ℕ)
    (flowId : PlainId) :
    ∃ r, b.toRendered ref flowId = some r ∧ b.Resolves (.flow ref flowId) r :=
  (wired_of_run hsound h hdone).resolves ref flowId

def df : PlainId := ⟨"df", by decide⟩

/-- `b = op.branch("b", op.input("inp", flow, ...), ...)`, and an operator that takes both streams,
maps the first, merges it with the second, and returns what is merged and the second as it is; each
of the two goes to an output. -/
def nested : List BuildAction :=
  [.dataflow "df", .callCore .input "inp" [0], .callCore .branch "b" [1],
    .call "partly" "p" [.port .ups [2, 3]], .call "map" "m" [.port .up [4]],
    .callCore .flatMapBatch "flat_map_batch" [6], .ret [.port .down [7]],
    .callCore .merge "merge" [8, 5], .ret [.port .down [9], .port .falses [5]],
    .callCore .output "out" [10], .callCore .output "rest" [11]]

theorem toRendered_resolves_nested : ∃ b new r, Runs.run step init nested = some (b, new) ∧
    b.toRendered 0 df = some r ∧ b.Resolves (.flow 0 df) r ∧
    fromPort? r.ports "df.b.falses" "df.rest.up" = some "df.p.falses" ∧
    fromPort? r.ports "df.b.falses" "df.p.falses" = some "df.p.ups" ∧
    fromPort? r.ports "df.b.falses" "df.p.ups" = some "df.b.falses" := by
  have hsome : ((Runs.run step init nested).filter fun out => out.1.calls = []).isSome := by
    decide +kernel
  have hlinks : ∀ out ∈ Runs.run step init nested, ∀ r ∈ out.1.toRendered 0 df,
      fromPort? r.ports "df.b.falses" "df.rest.up" = some "df.p.falses" ∧
        fromPort? r.ports "df.b.falses" "df.p.falses" = some "df.p.ups" ∧
        fromPort? r.ports "df.b.falses" "df.p.ups" = some "df.b.falses" := by
    decide +kernel
  obtain ⟨⟨b, new⟩, hout⟩ := Option.isSome_iff_exists.mp hsome
  obtain ⟨h, hdone⟩ := Option.filter_eq_some_iff.mp hout
  obtain ⟨r, hr, hresolves⟩ := toRendered_resolves (by decide +kernel) h (of_decide_eq_true hdone) 0
    df
  exact ⟨b, new, r, h, hr, hresolves, hlinks _ h r hr⟩

/-- `s = op.input("inp", flow, ...)`, `s = identity("ident", s)` and `op.output("out", s, ...)`,
where the builder of `identity` returns its stream. -/
def identity : List BuildAction :=
  [.dataflow "df", .callCore .input "inp" [0],
    .call "identity" "ident" [.port .up [1]], .ret [.port .down [2]],
    .callCore .output "out" [3]]

/-- The links from the input port of the output end at the output port of `identity`. -/
theorem not_resolves_identity : ∃ b new r, Runs.run step init identity = some (b, new) ∧
    b.calls = [] ∧ b.toRendered 0 df = some r ∧
    ¬ b.Resolves (.flow 0 df) r := by
  have hsome : ((Runs.run step init identity).bind fun out =>
      (out.1.toRendered 0 df).map fun r => (out, r)).isSome := by
    decide +kernel
  have hlinks : ∀ out ∈ Runs.run step init identity, out.1.calls = [] ∧
      (∃ e ∈ out.1.steps, e.outer.root = .flow 0 df ∧ e.typ.isCore = true ∧
        ∃ port ∈ e.ups, "df.inp.down" ∈ port.streamIds ∧ e.portId port = "df.out.up") ∧
      (∀ c ∈ out.1.steps, c.typ.isCore = true → ∀ down ∈ c.downs, c.portId down ≠ "df.ident.down") ∧
      ∀ r ∈ out.1.toRendered 0 df,
        fromPort? r.ports "df.inp.down" "df.out.up" = some "df.ident.down" ∧
          fromPort? r.ports "df.inp.down" "df.ident.down" = none := by
    decide +kernel
  obtain ⟨⟨⟨b, new⟩, r⟩, hout⟩ := Option.isSome_iff_exists.mp hsome
  obtain ⟨⟨b', new'⟩, h, hr⟩ := Option.bind_eq_some_iff.mp hout
  obtain ⟨r', hr', heq⟩ := Option.map_eq_some_iff.mp hr
  cases heq
  obtain ⟨hdone, ⟨e, he, hroot, hcore, port, hport, hs, hid⟩, hother, hlink⟩ := hlinks _ h
  obtain ⟨hfirst, hlast⟩ := hlink _ hr'
  refine ⟨b, new, r, h, hdone, hr', fun hresolves => ?_⟩
  obtain ⟨c, hc, -, hcoreC, down, hdown, -, hends⟩ :=
    hresolves.origin e he hroot hcore port hport _ hs
  have hend : ∀ q, EndsAt r.ports "df.inp.down" "df.out.up" q → q = "df.ident.down" := by
    intro q hends
    rcases hends with hnone | ⟨hsome, hends⟩
    · rw [hfirst] at hnone
      cases hnone
    · obtain rfl := Option.some.inj (hfirst.symm.trans hsome)
      rcases hends with - | ⟨hsome, -⟩
      · rfl
      · rw [hlast] at hsome
        cases hsome
  exact hother c hc hcoreC down hdown (hend _ (hid ▸ hends))

end Building
end Bytewax
