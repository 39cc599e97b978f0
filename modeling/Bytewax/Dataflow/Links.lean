import Bytewax.Dataflow.Encoder
import Bytewax.Dataflow.Wired

/-!
# Bytewax.Dataflow.Links — rendered links lead to the origin of a stream

While a list of substeps is rendered, the first map of the chain has the streams that the list can
use, each with a port from which the links lead on to the core step that makes the stream: the input
ports of the owner at first, and then the output ports of each step that was rendered.  The maps
behind it are never read (`Building.toRenderedStep_spec`).
-/

namespace Bytewax

/-! ### Ports -/

namespace OperatorStep

variable {e : OperatorStep} {ports : List Port} {m : ChainMap String String} {s p : String}

/-- The IDs of the ports, as they are rendered. -/
def portIds (e : OperatorStep) : List String := e.ups.map e.portId ++ e.downs.map e.portId

theorem mem_portEntries :
    (s, p) ∈ e.portEntries ports ↔ ∃ port ∈ ports, s ∈ port.streamIds ∧ p = e.portId port := by
  simp [portEntries, eq_comm]

theorem mem_keys_portEntries :
    s ∈ (e.portEntries ports).map Prod.fst ↔ s ∈ ports.flatMap Port.streamIds := by
  simp [portEntries, List.map_flatMap, Function.comp_def]

/-- A rendered port, with the links of these streams. -/
structure RendersPort (e : OperatorStep) (m : ChainMap String String) (port : Port)
    (streamIds : List String) (r : RenderedPort) : Prop where
  portId : r.portId = e.portId port
  fromStreamIds : r.fromStreamIds = streamIds
  links : ∀ s ∈ streamIds, (r.fromStreamIds.zip r.fromPortIds).lookup s = m.map.get? s

theorem renderPort_spec (port : Port) {streamIds : List String}
    (h : ∀ s ∈ streamIds, (m.map.get? s).isSome) :
    ∃ r, e.renderPort m port streamIds = some r ∧ e.RendersPort m port streamIds r := by
  obtain ⟨fromPortIds, hfrom, hlinks⟩ := ChainMap.mapM_get? h
  refine ⟨⟨port.name.id, e.portId port, fromPortIds, streamIds⟩, ?_, rfl, rfl, hlinks⟩
  rw [renderPort, hfrom]
  rfl

theorem renderPorts_spec {streamIds : Port → List String}
    (h : ∀ port ∈ ports, ∀ s ∈ streamIds port, (m.map.get? s).isSome) :
    ∃ rs, ports.mapM (fun port => e.renderPort m port (streamIds port)) = some rs ∧
      rs.map RenderedPort.portId = ports.map e.portId ∧
      ∀ port ∈ ports, ∃ r ∈ rs, e.RendersPort m port (streamIds port) r := by
  induction ports with
  | nil => exact ⟨[], rfl, rfl, fun port hport => by cases hport⟩
  | cons port ports ih =>
    obtain ⟨r, hr, hspec⟩ := e.renderPort_spec port (h port List.mem_cons_self)
    obtain ⟨rs, hrs, hids, hall⟩ := ih fun port' hport' => h port' (List.mem_cons_of_mem _ hport')
    refine ⟨r :: rs, ?_, ?_, ?_⟩
    · rw [List.mapM_cons, hr, hrs]
      rfl
    · rw [List.map_cons, List.map_cons, hspec.portId, hids]
    · refine List.forall_mem_cons.mpr ⟨⟨r, List.mem_cons_self, hspec⟩, fun port' hport' => ?_⟩
      obtain ⟨r', hr', hspec'⟩ := hall port' hport'
      exact ⟨r', List.mem_cons_of_mem _ hr', hspec'⟩

end OperatorStep

theorem fromPort?_of_mem {G : List RenderedPort} {r : RenderedPort} {s : String}
    (hG : (G.map RenderedPort.portId).Nodup) (hr : r ∈ G) :
    fromPort? G s r.portId = (r.fromStreamIds.zip r.fromPortIds).lookup s := by
  have hfind : G.find? (fun port => port.portId = r.portId) = some r := by
    cases hf : G.find? (fun port => port.portId = r.portId) with
    | none => exact absurd (decide_eq_true rfl) (List.find?_eq_none.mp hf r hr)
    | some r' =>
      have hid : r'.portId = r.portId := by simpa using List.find?_some hf
      rw [List.inj_on_of_nodup_map hG (List.mem_of_find?_eq_some hf) hr hid]
  rw [fromPort?, hfind]
  rfl

namespace Building

variable {b : Building} {root : Substeps}

/-! ### What rendering steps does -/

/-- The links of the stream lead from the port to an output port of the core step that makes the
stream. -/
def Origin (b : Building) (root : Substeps) (G : List RenderedPort) (s p : String) : Prop :=
  ∃ c ∈ b.steps, c.outer.root = root ∧ c.typ.isCore = true ∧
    ∃ down ∈ c.downs, s ∈ down.streamIds ∧ EndsAt G s p (c.portId down)

theorem Origin.link {G : List RenderedPort} {s p q : String} (h : b.Origin root G s q)
    (hlink : fromPort? G s p = some q) : b.Origin root G s p := by
  obtain ⟨c, hc, hroot, hcore, down, hdown, hs, hends⟩ := h
  exact ⟨c, hc, hroot, hcore, down, hdown, hs, .link hlink hends⟩

/-- The ports in the first map have the origins of their streams. -/
def Traced (b : Building) (root : Substeps) (G : List RenderedPort) (m : ChainMap String String) :
    Prop :=
  ∀ s p, m.map.get? s = some p → b.Origin root G s p

/-- Steps, each with the steps in its list. -/
def below (b : Building) (es : List OperatorStep) : List OperatorStep :=
  es.flatMap fun e => e :: nesting.preorder b.steps e.substeps

theorem below_substepsOf (L : Substeps) :
    b.below (b.substepsOf L) = nesting.preorder b.steps L := by
  rw [Nesting.preorder_eq, Nesting.entries, below, substepsOf]
  congr 1
  refine List.filter_congr fun e _ => ?_
  show decide (e.outer = L) = decide (some e.outer = some L)
  simp

/-- Steps were rendered with this map, which has become the second one. -/
structure Renders (b : Building) (root : Substeps) (es : List OperatorStep)
    (m m' : ChainMap String String) (ports : List RenderedPort) : Prop where
  ids : ports.map RenderedPort.portId = (b.below es).flatMap OperatorStep.portIds
  traced : ∀ G : List RenderedPort, (G.map RenderedPort.portId).Nodup → ports ⊆ G →
    b.Traced root G m → b.Traced root G m' ∧
      ∀ e ∈ b.below es, ∀ port ∈ e.ups, ∀ s ∈ port.streamIds, b.Origin root G s (e.portId port)

theorem Renders.nil (m : ChainMap String String) : b.Renders root [] m m [] :=
  ⟨rfl, fun G _ _ hm => ⟨hm, fun e he => by cases he⟩⟩

theorem Renders.cons {e : OperatorStep} {es : List OperatorStep} {m m₁ m₂ : ChainMap String String}
    {ports ports' : List RenderedPort} (h : b.Renders root [e] m m₁ ports)
    (h' : b.Renders root es m₁ m₂ ports') : b.Renders root (e :: es) m m₂ (ports ++ ports') := by
  have hbelow : b.below (e :: es) = b.below [e] ++ b.below es := by simp [below]
  constructor
  · rw [hbelow, List.map_append, h.ids, h'.ids, List.flatMap_append]
  · intro G hG hsub hm
    obtain ⟨hm₁, he⟩ := h.traced G hG (fun x hx => hsub (List.mem_append_left _ hx)) hm
    obtain ⟨hm₂, hes⟩ := h'.traced G hG (fun x hx => hsub (List.mem_append_right _ hx)) hm₁
    refine ⟨hm₂, fun x hx => ?_⟩
    rw [hbelow] at hx
    exact (List.mem_append.mp hx).elim (he x) (hes x)

/-! ### One list after the other -/

/-- The owner of the list has the stream on an input port. -/
def InputTo (b : Building) (s : String) (L : Substeps) : Prop :=
  ∃ o ∈ b.steps, o.substeps = L ∧ s ∈ o.upIds

/-- What comes before a step in its list was appended before. -/
theorem substepsOf_split {L : Substeps} {done es : List OperatorStep} {e : OperatorStep}
    (h : b.substepsOf L = done ++ e :: es) :
    ∃ pre post, b.steps = pre ++ e :: post ∧ ∀ x ∈ pre, x.outer = L → x ∈ done := by
  obtain ⟨l₁, l₂, hsteps, hdone, h⟩ := List.filter_eq_append_iff.mp h
  obtain ⟨l₃, l₄, rfl, hnone, -, -⟩ := List.filter_eq_cons_iff.mp h
  refine ⟨l₁ ++ l₃, l₄, by rw [hsteps, List.append_assoc], fun x hx ho => ?_⟩
  rcases List.mem_append.mp hx with hx | hx
  · rw [← hdone]
    exact List.mem_filter.mpr ⟨hx, decide_eq_true ho⟩
  · exact absurd (decide_eq_true ho) (hnone x hx)

/-- A step of a list finds its streams in the first map. -/
theorem Wired.inputs_shown (hw : b.Wired) {L : Substeps} {done es : List OperatorStep}
    {e : OperatorStep} {m : ChainMap String String} (h : b.substepsOf L = done ++ e :: es)
    (hm : ∀ s, MadeIn done s L ∨ b.InputTo s L → (m.map.get? s).isSome) :
    ∀ s ∈ e.upIds, (m.map.get? s).isSome := by
  intro s hs
  have houter : e.outer = L := by
    have he : e ∈ b.substepsOf L := h ▸ List.mem_append_right _ List.mem_cons_self
    exact (mem_substepsOf.mp he).2
  obtain ⟨pre, post, hsteps, hpre⟩ := substepsOf_split h
  rcases hw.ups pre e post hsteps s hs with ⟨e', he', ho, hdown⟩ | hinput
  · rw [houter] at ho
    exact hm s (.inl ⟨e', hpre e' he' ho, ho, hdown⟩)
  · rw [houter] at hinput
    exact hm s (.inr hinput)

theorem renderAll_spec (hw : b.Wired) {L : Substeps} {render : OperatorStep →
      ChainMap String String → Option (RenderedOperator × ChainMap String String)}
    (hrender : ∀ e ∈ b.substepsOf L, ∀ m : ChainMap String String,
      (∀ s ∈ e.upIds, (m.map.get? s).isSome) →
      ∃ r, render e m = some (r, m.update (e.portEntries e.downs)) ∧
        b.Renders root [e] m (m.update (e.portEntries e.downs)) r.ports)
    (done es : List OperatorStep) (m : ChainMap String String) (h : b.substepsOf L = done ++ es)
    (hm : ∀ s, MadeIn done s L ∨ b.InputTo s L → (m.map.get? s).isSome) :
    ∃ rs m', renderAll render es m = some (rs, m') ∧ rs.length = es.length ∧
      (∀ s, MadeIn (b.substepsOf L) s L ∨ b.InputTo s L → (m'.map.get? s).isSome) ∧
      b.Renders root es m m' (portsAll rs) := by
  induction es generalizing done m with
  | nil =>
    rw [List.append_nil] at h
    exact ⟨[], m, rfl, rfl, h ▸ hm, .nil m⟩
  | cons e es ih =>
    have he : e ∈ b.substepsOf L := h ▸ List.mem_append_right _ List.mem_cons_self
    obtain ⟨r, hr, hfirst⟩ := hrender e he m (hw.inputs_shown h hm)
    have hshown : ∀ s, MadeIn (done ++ [e]) s L ∨ b.InputTo s L →
        ((m.update (e.portEntries e.downs)).map.get? s).isSome := by
      rintro s (⟨e', he', ho, hs⟩ | hinput)
      · rcases List.mem_append.mp he' with he' | he'
        · exact Dict.get?_update_isSome (.inr (hm s (.inl ⟨e', he', ho, hs⟩)))
        · rw [List.mem_singleton.mp he'] at hs
          exact Dict.get?_update_isSome (.inl (OperatorStep.mem_keys_portEntries.mpr hs))
      · exact Dict.get?_update_isSome (.inr (hm s (.inr hinput)))
    obtain ⟨rs, m', hrs, hlength, hm', hrest⟩ :=
      ih (done ++ [e]) (m.update (e.portEntries e.downs)) (by rw [h, List.append_assoc]; rfl) hshown
    refine ⟨r :: rs, m', ?_, ?_, hm', hfirst.cons hrest⟩
    swap
    · rw [List.length_cons, List.length_cons, hlength]
    rw [renderAll, hr]
    show (renderAll render es (m.update (e.portEntries e.downs))).bind _ = _
    rw [hrs]
    rfl

/-! ### Nested lists -/

theorem depth_le {e : OperatorStep} (he : e ∈ b.steps) : e.substeps.depth ≤ b.depth :=
  nesting.depth_le_maxDepth he

/-- A port whose links were looked up in the first map has the origin that the map has. -/
theorem Traced.origin {G : List RenderedPort} {m : ChainMap String String} {e : OperatorStep}
    {port : Port} {streamIds : List String} {r : RenderedPort} {s : String} (hm : b.Traced root G m)
    (hG : (G.map RenderedPort.portId).Nodup) (hr : r ∈ G) (hspec : e.RendersPort m port streamIds r)
    (hs : s ∈ streamIds) (hshown : (m.map.get? s).isSome) : b.Origin root G s (e.portId port) := by
  obtain ⟨p, hp⟩ := Option.isSome_iff_exists.mp hshown
  refine (hm s p hp).link ?_
  rw [← hspec.portId, fromPort?_of_mem hG hr, hspec.links s hs, hp]

/-- An output port of a core step is the origin of its streams. -/
theorem origin_of_core {G : List RenderedPort} {m : ChainMap String String} {e : OperatorStep}
    {port : Port} {r : RenderedPort} {s : String} (hG : (G.map RenderedPort.portId).Nodup)
    (hr : r ∈ G) (hspec : e.RendersPort m port [] r) (he : e ∈ b.steps)
    (hroot : e.outer.root = root)
    (hcore : e.typ.isCore = true) (hport : port ∈ e.downs) (hs : s ∈ port.streamIds) :
    b.Origin root G s (e.portId port) := by
  refine ⟨e, he, hroot, hcore, port, hport, hs, .here ?_⟩
  rw [← hspec.portId, fromPort?_of_mem hG hr, hspec.fromStreamIds]
  rfl

/-- Entries that have the origins of their streams may be added. -/
theorem Traced.update {G : List RenderedPort} {m : ChainMap String String} {e : OperatorStep}
    {ports : List Port} (hm : b.Traced root G m)
    (hports : ∀ port ∈ ports, ∀ s ∈ port.streamIds, b.Origin root G s (e.portId port)) :
    b.Traced root G (m.update (e.portEntries ports)) := by
  intro s p hp
  rcases Dict.mem_of_get?_update hp with hmem | hp
  · obtain ⟨port, hport, hs, rfl⟩ := OperatorStep.mem_portEntries.mp hmem
    exact hports port hport s hs
  · exact hm s p hp

theorem traced_empty (G : List RenderedPort) : b.Traced root G .empty := fun s p hp => by cases hp

/-- The output ports that have links are those of the steps that are not core operators. -/
theorem Wired.links_eq (hw : b.Wired) {e : OperatorStep} {port : Port} {n : ℕ} (he : e ∈ b.steps)
    (hport : port ∈ e.downs) (hn : n = (b.substepsOf e.substeps).length) :
    (if n > 0 then port.streamIds else []) =
      if e.typ.isCore = true then [] else port.streamIds := by
  cases hcore : e.typ.isCore with
  | true =>
    rw [hw.leaf e he hcore] at hn
    simp [hn]
  | false =>
    cases hids : port.streamIds with
    | nil => simp
    | cons s ids =>
      have hs : s ∈ e.downIds :=
        List.mem_flatMap.mpr ⟨port, hport, hids ▸ List.mem_cons_self⟩
      have hpos : 0 < n := hn ▸ List.length_pos_iff.mpr (hw.downs e he hcore s hs).1
      rw [if_pos hpos]
      rfl

/-- After its substeps, the streams of a step with substeps are in the first map. -/
theorem Wired.outs_shown (hw : b.Wired) {e : OperatorStep} {m : ChainMap String String} {s : String}
    (he : e ∈ b.steps) (hcore : e.typ.isCore = false) (hs : s ∈ e.downIds)
    (hm : ∀ s, MadeIn (b.substepsOf e.substeps) s e.substeps ∨ b.InputTo s e.substeps →
      (m.map.get? s).isSome) : (m.map.get? s).isSome := by
  rcases (hw.downs e he hcore s hs).2 with ⟨e', he', ho, hs'⟩ | hup
  · exact hm s (.inl ⟨e', mem_substepsOf.mpr ⟨he', ho⟩, ho, hs'⟩)
  · exact hm s (.inr ⟨e, he, rfl, hup⟩)

/-- The ports of a step, and what was rendered below it. -/
theorem Renders.step (hw : b.Wired) {e : OperatorStep} {m inner inner' : ChainMap String String}
    {inps outs below : List RenderedPort} (he : e ∈ b.steps)
    (hroot : e.outer.root = root) (hm : ∀ s ∈ e.upIds, (m.map.get? s).isSome)
    (hinner : inner.map = Dict.empty.update (e.portEntries e.ups))
    (hshown : ∀ s, MadeIn (b.substepsOf e.substeps) s e.substeps ∨ b.InputTo s e.substeps →
      (inner'.map.get? s).isSome)
    (hinpIds : inps.map RenderedPort.portId = e.ups.map e.portId)
    (hinp : ∀ port ∈ e.ups, ∃ r ∈ inps, e.RendersPort m port port.streamIds r)
    (houtIds : outs.map RenderedPort.portId = e.downs.map e.portId)
    (hout : ∀ port ∈ e.downs, ∃ r ∈ outs, e.RendersPort inner' port
      (if e.typ.isCore = true then [] else port.streamIds) r)
    (hbelow : b.Renders root (b.substepsOf e.substeps) inner inner' below) :
    b.Renders root [e] m (m.update (e.portEntries e.downs)) (inps ++ outs ++ below) := by
  have hone : b.below [e] = e :: nesting.preorder b.steps e.substeps := by simp [Building.below]
  constructor
  · rw [hone, List.flatMap_cons, ← below_substepsOf, ← hbelow.ids, OperatorStep.portIds, ← hinpIds,
      ← houtIds, List.map_append, List.map_append]
  · intro G hG hsub htraced
    have hinps : ∀ port ∈ e.ups, ∀ s ∈ port.streamIds, b.Origin root G s (e.portId port) := by
      intro port hport s hs
      obtain ⟨r, hr, hspec⟩ := hinp port hport
      have hmem : r ∈ G := hsub (List.mem_append_left _ (List.mem_append_left _ hr))
      exact htraced.origin hG hmem hspec hs (hm s (List.mem_flatMap.mpr ⟨port, hport, hs⟩))
    have htracedInner : b.Traced root G inner := by
      intro s p hp
      rw [hinner] at hp
      exact (traced_empty G).update hinps s p hp
    obtain ⟨htraced', hrest⟩ :=
      hbelow.traced G hG (fun r hr => hsub (List.mem_append_right _ hr)) htracedInner
    have houts : ∀ port ∈ e.downs, ∀ s ∈ port.streamIds, b.Origin root G s (e.portId port) := by
      intro port hport s hs
      obtain ⟨r, hr, hspec⟩ := hout port hport
      have hmem : r ∈ G := hsub (List.mem_append_left _ (List.mem_append_right _ hr))
      cases hcore : e.typ.isCore with
      | true =>
        rw [if_pos hcore] at hspec
        exact origin_of_core hG hmem hspec he hroot hcore hport hs
      | false =>
        rw [if_neg (Bool.eq_false_iff.mp hcore)] at hspec
        have hdown : s ∈ e.downIds := List.mem_flatMap.mpr ⟨port, hport, hs⟩
        exact htraced'.origin hG hmem hspec hs (hw.outs_shown he hcore hdown hshown)
    refine ⟨htraced.update houts, fun x hx => ?_⟩
    rw [hone, ← below_substepsOf] at hx
    rcases List.mem_cons.mp hx with rfl | hx
    · exact hinps
    · exact hrest x hx

/-- **Rendering a step** succeeds when its streams are in the first map; it adds the output ports of
the step, and the links of the step and of all steps in it lead to the origins of the streams. -/
theorem toRenderedStep_spec (hw : b.Wired) (fuel : ℕ) {e : OperatorStep}
    {m : ChainMap String String} (he : e ∈ b.steps) (hroot : e.outer.root = root)
    (hfuel : b.depth < fuel + e.substeps.depth) (hm : ∀ s ∈ e.upIds, (m.map.get? s).isSome) :
    ∃ r, b.toRenderedStep fuel e m = some (r, m.update (e.portEntries e.downs)) ∧
      b.Renders root [e] m (m.update (e.portEntries e.downs)) r.ports := by
  induction fuel generalizing e m with
  | zero =>
    have hle := depth_le he
    omega
  | succ fuel ih =>
    have hups : ∀ port ∈ e.ups, ∀ s ∈ port.streamIds, (m.map.get? s).isSome :=
      fun port hport s hs => hm s (List.mem_flatMap.mpr ⟨port, hport, hs⟩)
    obtain ⟨inps, hinps, hinpIds, hinp⟩ := e.renderPorts_spec hups
    let inner := (m.update (e.portEntries e.downs)).newChild (e.portEntries e.ups)
    have hinner : ∀ s, MadeIn [] s e.substeps ∨ b.InputTo s e.substeps →
        (inner.map.get? s).isSome := by
      rintro s (⟨e', he', -⟩ | ⟨o, ho, hown, hs⟩)
      · cases he'
      · rw [hw.complete.own_inj ho he hown] at hs
        exact Dict.get?_update_isSome (.inl (OperatorStep.mem_keys_portEntries.mpr hs))
    have hrender : ∀ e' ∈ b.substepsOf e.substeps, ∀ m' : ChainMap String String,
        (∀ s ∈ e'.upIds, (m'.map.get? s).isSome) →
        ∃ r, b.toRenderedStep fuel e' m' = some (r, m'.update (e'.portEntries e'.downs)) ∧
          b.Renders root [e'] m' (m'.update (e'.portEntries e'.downs)) r.ports := by
      intro e' he' m' hm'
      obtain ⟨hmem, ho⟩ := mem_substepsOf.mp he'
      refine ih hmem (by rw [ho]; exact hroot) ?_ hm'
      have hdepth : e'.substeps.depth = e.substeps.depth + 1 := congrArg (Substeps.depth · + 1) ho
      omega
    obtain ⟨rs, inner', hrs, hlength, hshown, hrest⟩ :=
      renderAll_spec hw hrender [] (b.substepsOf e.substeps) inner rfl hinner
    have hshownOuts : ∀ port ∈ e.downs,
        ∀ s ∈ if e.typ.isCore = true then [] else port.streamIds, (inner'.map.get? s).isSome := by
      intro port hport s hs
      cases hcore : e.typ.isCore with
      | true =>
        rw [if_pos hcore] at hs
        cases hs
      | false =>
        rw [if_neg (Bool.eq_false_iff.mp hcore)] at hs
        exact hw.outs_shown he hcore (List.mem_flatMap.mpr ⟨port, hport, hs⟩) hshown
    obtain ⟨outs, houtsEq, houtIds, hout⟩ := e.renderPorts_spec hshownOuts
    refine ⟨⟨e.typ.name, e.stepName.id, e.stepId, inps, outs, rs⟩, ?_, ?_⟩
    · have houts : e.downs.mapM (fun port => e.renderPort inner' port
          (if rs.length > 0 then port.streamIds else [])) = some outs := by
        rw [MapM.eq_some_iff, ← MapM.eq_some_iff.mp houtsEq]
        exact List.map_congr_left fun port hport => by rw [hw.links_eq he hport hlength]
      rw [toRenderedStep, hinps]
      show (renderAll (b.toRenderedStep fuel) (b.substepsOf e.substeps) inner).bind _ = _
      rw [hrs]
      show Option.bind (e.downs.mapM fun port => e.renderPort inner' port
        (if rs.length > 0 then port.streamIds else [])) _ = _
      rw [houts]
      rfl
    · exact .step hw he hroot hm rfl hshown hinpIds hinp houtIds hout hrest

end Building
end Bytewax
