import Bytewax.Dataflow.Compile
import Mathlib.Data.List.Forall2
import Mathlib.Data.List.Perm.Subperm

/-!
# Bytewax.Dataflow.Traversal — every core step is compiled once, after those it reads from

The loop over the stack compiles the core steps of a dataflow in preorder (`buildLoop_eq`).  In a
built dataflow no two core steps make streams of the same ID, so that no stream is stored twice; and
if the actions of the program were all scoped, each stream is stored before it is looked up.
-/

namespace Bytewax

/-! ### Ports -/

/-- What the Python function of a core operator says about its input ports. -/
def CoreOp.Takes : CoreOp → List Port → Prop
  | .input, ups => ups = []
  | .merge, ups => ∃ streamIds, ups = [⟨.ups, streamIds⟩]
  | _, ups => ∃ streamId, ups = [⟨.up, [streamId]⟩]

namespace OperatorStep

variable {e : OperatorStep} {port : Port} {op : CoreOp}

theorem WellPorted.port? (h : e.WellPorted) (hport : port ∈ e.ups ++ e.downs) :
    e.port? port.name = some port := by
  have hsome : (e.port? port.name).isSome := by
    rw [OperatorStep.port?, List.find?_isSome]
    exact ⟨port, hport, by simp⟩
  obtain ⟨port', hport'⟩ := Option.isSome_iff_exists.mp hsome
  have hname : port'.name = port.name := by simpa using List.find?_some hport'
  rw [hport', List.inj_on_of_nodup_map h.names (List.mem_of_find?_eq_some hport') hport hname]

theorem WellPorted.getPortStream {name : PlainId} {s : String} (h : e.WellPorted)
    (hport : ⟨name, [s]⟩ ∈ e.ups ++ e.downs) : e.getPortStream name = .ok s := by
  have hget := h.port? hport
  unfold OperatorStep.getPortStream
  rw [hget]

/-- The streams that a core step puts out. -/
theorem WellPorted.downIds (h : e.WellPorted) (hop : e.typ = .core op) :
    e.downIds = op.downNames.map fun name => e.stepId ++ "." ++ name.id := by
  rw [OperatorStep.downIds, h.downs op hop, CoreOp.downs]
  induction op.downNames with
  | nil => rfl
  | cons name names ih =>
    rw [List.map_cons, List.flatMap_cons, ih]
    rfl

theorem WellPorted.getPortStream_down {name : PlainId} (h : e.WellPorted) (hop : e.typ = .core op)
    (hname : name ∈ op.downNames) :
    e.getPortStream name = .ok (e.stepId ++ "." ++ name.id) := by
  refine h.getPortStream (List.mem_append_right _ ?_)
  rw [h.downs op hop]
  exact List.mem_map.mpr ⟨name, hname, rfl⟩

end OperatorStep

namespace Building

variable {b b' : Building} {action : BuildAction} {new : List Handle} {actions : List BuildAction}

/-! ### Input ports of core steps -/

theorem takes_of_coreArgs {op : CoreOp} {is : List ℕ} {args : List Arg} {ups : List Port}
    (hargs : op.args is = some args) (hups : b.ports args = some ups) : op.Takes ups := by
  have hport : ∀ {name : PlainId} {is : List ℕ}, b.ports [.port name is] = some ups →
      ∃ ids, ups = [⟨name, ids⟩] ∧ ids.length = is.length := by
    intro name is hports
    obtain ⟨handles, hlookup, hports⟩ := Option.bind_eq_some_iff.mp hports
    obtain ⟨ids, hids, hports⟩ := Option.bind_eq_some_iff.mp hports
    cases hports
    exact ⟨ids, rfl, (MapM.length_eq hids).trans (MapM.length_eq hlookup)⟩
  unfold CoreOp.args at hargs
  split at hargs
  · cases hargs
    cases hups
    rfl
  · cases hargs
  · cases hargs
    obtain ⟨ids, rfl, -⟩ := hport hups
    exact ⟨ids, rfl⟩
  · next hinput hmerge =>
    cases hargs
    obtain ⟨ids, rfl, hlen⟩ := hport hups
    obtain ⟨id, rfl⟩ := List.length_eq_one_iff.mp hlen
    cases op with
    | input => exact absurd rfl hinput
    | merge => exact absurd rfl hmerge
    | _ => exact ⟨id, rfl⟩
  · cases hargs

/-- Core steps have the input ports of their functions. -/
def Fed (b : Building) : Prop := ∀ e ∈ b.steps, ∀ op, e.typ = .core op → op.Takes e.ups

theorem Fed.of_moves (h : b.Fed) (hb : b.Shape) (hm : b.Moves action b') : b'.Fed := by
  intro e he op hop
  cases hm with
  | dataflow id => exact h e he op hop
  | flow i hmem => exact h e he op hop
  | @callCore op' is args c handles hargs henters hnew =>
    rcases List.mem_append.mp he with he | he
    · exact h e he op hop
    · rw [List.mem_singleton.mp he] at hop ⊢
      have htyp : c.typ = .core op := hop
      rw [henters.typ] at htyp
      cases htyp
      exact takes_of_coreArgs hargs henters.ups
  | call henters => exact h e he op hop
  | @ret out downs handles c calls hcalls hdowns hlookup hnames hnew =>
    rcases List.mem_append.mp he with he | he
    · exact h e he op hop
    · rw [List.mem_singleton.mp he] at hop
      have hother := hb.other c (hcalls ▸ List.mem_cons_self)
      have htyp : c.typ = .core op := hop
      rw [htyp] at hother
      cases hother

end Building

/-! ### One core step -/

/-- The core step among `steps` that makes a stream puts it out as `stream`. -/
def Feeds (steps : List OperatorStep) (s : String) (stream : TimelyStream) : Prop :=
  ∃ x ∈ steps, x.typ.isCore = true ∧
    ∃ port ∈ x.downs, s ∈ port.streamIds ∧ stream = ⟨x.stepId, port.name⟩

/-- The operators for a core step, which read the streams of its input ports. -/
structure Compiles (steps : List OperatorStep) (e : OperatorStep) (node : TimelyNode) : Prop where
  stepId : node.stepId = e.stepId
  op : e.typ = .core node.op
  ups : List.Forall₂ (Feeds steps) e.upIds node.ups

theorem exists_of_mem_forall₂ {α β : Type*} {R : α → β → Prop} {xs : List α} {ys : List β} {x : α}
    (h : List.Forall₂ R xs ys) (hx : x ∈ xs) : ∃ y ∈ ys, R x y := by
  induction h with
  | nil => cases hx
  | cons hhead _ ih =>
    rcases List.mem_cons.mp hx with rfl | hx
    · exact ⟨_, List.mem_cons_self, hhead⟩
    · obtain ⟨y, hy, hxy⟩ := ih hx
      exact ⟨y, List.mem_cons_of_mem _ hy, hxy⟩

theorem Feeds.mono {steps steps' : List OperatorStep} {s : String} {stream : TimelyStream}
    (h : Feeds steps s stream) (hsub : steps ⊆ steps') : Feeds steps' s stream := by
  obtain ⟨x, hx, hrest⟩ := h
  exact ⟨x, hsub hx, hrest⟩

theorem feeds_singleton {e : OperatorStep} {op : CoreOp} {s : String} {stream : TimelyStream}
    (h : e.WellPorted) (hop : e.typ = .core op) : Feeds [e] s stream ↔
      ∃ name ∈ op.downNames, s = e.stepId ++ "." ++ name.id ∧ stream = ⟨e.stepId, name⟩ := by
  have hcore : e.typ.isCore = true := by rw [hop]; rfl
  simp [Feeds, hcore, h.downs op hop, CoreOp.downs]

namespace StreamCache

variable {m : StreamCache} {args : StepArgs} {e : OperatorStep} {op : CoreOp}

theorem getStream_of_get? {s : String} {stream : TimelyStream} (h : m.get? s = some stream) :
    m.getStream s = .ok stream := by
  unfold getStream
  rw [h]

theorem mapM_getStream {ids : List String} (h : ∀ s ∈ ids, (m.get? s).isSome) :
    ∃ streams, ids.mapM m.getStream = .ok streams ∧
      List.Forall₂ (fun s stream => m.get? s = some stream) ids streams := by
  induction ids with
  | nil => exact ⟨[], rfl, .nil⟩
  | cons s ids ih =>
    obtain ⟨hs, hids⟩ := List.forall_mem_cons.mp h
    obtain ⟨stream, hstream⟩ := Option.isSome_iff_exists.mp hs
    obtain ⟨streams, hok, hall⟩ := ih hids
    refine ⟨stream :: streams, ?_, .cons hstream hall⟩
    rw [List.mapM_cons, getStream_of_get? hstream, hok]
    rfl

theorem getUps_spec (h : e.WellPorted) (htakes : op.Takes e.ups)
    (hups : ∀ s ∈ e.upIds, (m.get? s).isSome) :
    ∃ streams, m.getUps e op = .ok streams ∧
      List.Forall₂ (fun s stream => m.get? s = some stream) e.upIds streams := by
  have hone : (∃ s, e.ups = [⟨.up, [s]⟩]) → ∃ streams, (do
      let up ← m.getUpstream e .up
      return [up] : Except BuildError (List TimelyStream)) = .ok streams ∧
        List.Forall₂ (fun s stream => m.get? s = some stream) e.upIds streams := by
    rintro ⟨s, hs⟩
    have hid : e.upIds = [s] := by rw [OperatorStep.upIds, hs]; rfl
    rw [hid] at hups ⊢
    obtain ⟨stream, hstream⟩ := Option.isSome_iff_exists.mp (hups s List.mem_cons_self)
    have hport : e.getPortStream .up = .ok s :=
      h.getPortStream (List.mem_append_left _ (by rw [hs]; exact List.mem_cons_self))
    refine ⟨[stream], ?_, .cons hstream .nil⟩
    rw [getUpstream, hport]
    show Except.bind (m.getStream s) _ = _
    rw [getStream_of_get? hstream]
    rfl
  cases op with
  | input =>
    have hnone : e.ups = [] := htakes
    refine ⟨[], rfl, ?_⟩
    rw [OperatorStep.upIds, hnone]
    exact .nil
  | merge =>
    obtain ⟨ids, hids⟩ : ∃ ids, e.ups = [⟨.ups, ids⟩] := htakes
    have hid : e.upIds = ids := by
      rw [OperatorStep.upIds, hids]
      exact List.append_nil ids
    rw [hid] at hups ⊢
    obtain ⟨streams, hok, hall⟩ := mapM_getStream hups
    have hmem : (⟨.ups, ids⟩ : Port) ∈ e.ups ++ e.downs :=
      List.mem_append_left _ (by rw [hids]; exact List.mem_cons_self)
    have hget : e.port? .ups = some ⟨.ups, ids⟩ := h.port? hmem
    refine ⟨streams, ?_, hall⟩
    show getUpmultistream m e .ups = .ok streams
    rw [getUpmultistream, OperatorStep.getMultiportStreams, hget]
    exact hok
  | _ => exact hone htakes

/-- Storing streams of new IDs. -/
theorem insertAll_spec {names : List PlainId} (hnames : names.Nodup)
    (hget : ∀ name ∈ names, e.getPortStream name = .ok (e.stepId ++ "." ++ name.id))
    (hnew : ∀ name ∈ names, m.get? (e.stepId ++ "." ++ name.id) = none) :
    ∃ m', names.foldlM (fun streams name => insertDownstream streams e name ⟨e.stepId, name⟩) m =
        .ok m' ∧
      ∀ s stream, m'.get? s = some stream ↔ m.get? s = some stream ∨
        ∃ name ∈ names, s = e.stepId ++ "." ++ name.id ∧ stream = ⟨e.stepId, name⟩ := by
  induction names generalizing m with
  | nil => exact ⟨m, rfl, by simp⟩
  | cons name names ih =>
    obtain ⟨hname, hnames⟩ := List.nodup_cons.mp hnames
    obtain ⟨hget₀, hget⟩ := List.forall_mem_cons.mp hget
    obtain ⟨hnew₀, hnew⟩ := List.forall_mem_cons.mp hnew
    have hins : insertDownstream m e name ⟨e.stepId, name⟩ =
        .ok (m.set (e.stepId ++ "." ++ name.id) ⟨e.stepId, name⟩) := by
      rw [insertDownstream, hget₀]
      show (if (m.get? (e.stepId ++ "." ++ name.id)).isSome then _ else _) = _
      rw [hnew₀]
      rfl
    have hother : ∀ name' ∈ names,
        (m.set (e.stepId ++ "." ++ name.id) ⟨e.stepId, name⟩).get? (e.stepId ++ "." ++ name'.id) =
          none := by
      intro name' hname'
      rw [Dict.get?_set, if_neg fun heq => ?_]
      · exact hnew name' hname'
      · obtain ⟨-, rfl⟩ := eq_of_append_period heq
        exact hname hname'
    obtain ⟨m', hok, hm'⟩ := ih hnames hget hother
    refine ⟨m', ?_, fun s stream => ?_⟩
    · rw [List.foldlM_cons, hins]
      exact hok
    · rw [hm', Dict.get?_set]
      by_cases hs : e.stepId ++ "." ++ name.id = s
      · subst hs
        rw [if_pos rfl, hnew₀]
        constructor
        · rintro (hstream | ⟨name', hname', heq, rfl⟩)
          · exact .inr ⟨name, List.mem_cons_self, rfl, (Option.some.inj hstream).symm⟩
          · exact .inr ⟨name', List.mem_cons_of_mem _ hname', heq, rfl⟩
        · rintro (hnone | ⟨name', hname', heq, rfl⟩)
          · cases hnone
          · obtain ⟨-, rfl⟩ := eq_of_append_period heq
            exact .inl rfl
      · rw [if_neg hs]
        refine or_congr_right ⟨?_, ?_⟩
        · rintro ⟨name', hname', hrest⟩
          exact ⟨name', List.mem_cons_of_mem _ hname', hrest⟩
        · rintro ⟨name', hname', heq, hrest⟩
          rcases List.mem_cons.mp hname' with rfl | hname'
          · exact absurd heq.symm hs
          · exact ⟨name', hname', heq, hrest⟩

theorem downNames_nodup (op : CoreOp) : op.downNames.Nodup := by
  cases op <;> decide

/-- A core step whose arguments raise something: that is raised. -/
theorem compileCore_raises {err : String} (h : e.WellPorted) (htakes : op.Takes e.ups)
    (hups : ∀ s ∈ e.upIds, (m.get? s).isSome) (hargs : args.raises e = some err) :
    m.compileCore args e op = .error (.argument err) := by
  obtain ⟨streams, hstreams, -⟩ := getUps_spec h htakes hups
  unfold StepArgs.raises at hargs
  cases hextract : args.extract e with
  | some err' =>
    rw [hextract] at hargs
    cases hargs
    rw [compileCore, hextract]
    rfl
  | none =>
    rw [hextract] at hargs
    rw [compileCore, hextract, hstreams, show args.build e = some err from hargs]
    rfl

/-- **One core step**: its input streams are stored and its output streams are not. -/
theorem compileCore_spec (h : e.WellPorted) (hop : e.typ = .core op) (htakes : op.Takes e.ups)
    (hups : ∀ s ∈ e.upIds, (m.get? s).isSome) (hdowns : ∀ s ∈ e.downIds, m.get? s = none)
    (hargs : args.raises e = none) :
    ∃ streams m', m.compileCore args e op = .ok (⟨e.stepId, op, streams⟩, m') ∧
      List.Forall₂ (fun s stream => m.get? s = some stream) e.upIds streams ∧
      ∀ s stream, m'.get? s = some stream ↔ m.get? s = some stream ∨ Feeds [e] s stream := by
  obtain ⟨streams, hstreams, hall⟩ := getUps_spec h htakes hups
  rw [h.downIds hop] at hdowns
  obtain ⟨m', hm', hget⟩ := insertAll_spec (m := m) (downNames_nodup op)
    (fun name hname => h.getPortStream_down hop hname)
    fun name hname => hdowns _ (List.mem_map.mpr ⟨name, hname, rfl⟩)
  refine ⟨streams, m', ?_, hall, fun s stream => ?_⟩
  · obtain ⟨hextract, hbuild⟩ := Option.or_eq_none_iff.mp hargs
    rw [compileCore, hextract, hstreams, hbuild]
    show Except.bind (op.downNames.foldlM _ m) _ = _
    rw [hm']
    rfl
  · rw [hget, feeds_singleton h hop]

end StreamCache
namespace Building

variable {b : Building} {args : StepArgs} {m : StreamCache} {nodes : List TimelyNode}

/-! ### The loop -/

/-- Compile the core steps of a list one after the other. -/
def compileAll (args : StepArgs) : List OperatorStep → StreamCache → List TimelyNode →
    Except BuildError (List TimelyNode)
  | [], _, nodes => .ok nodes
  | step :: steps, streams, nodes =>
    match step.typ with
    | .core op =>
      match streams.compileCore args step op with
      | .error err => .error err
      | .ok (node, streams) => compileAll args steps streams (nodes ++ [node])
    | .other _ => compileAll args steps streams nodes

theorem substepsOf_eq_entries (L : Substeps) : b.substepsOf L = nesting.entries b.steps L := by
  refine List.filter_congr fun e _ => decide_eq_decide.mpr ⟨fun h => ?_, fun h => ?_⟩
  · exact congrArg some h
  · exact Option.some.inj h

/-- **The loop pops steps one after the other.** -/
theorem buildLoop_pops {stack popped : List OperatorStep} {fuel : ℕ}
    (h : nesting.Pops b.steps (fun e => e.typ.isCore) stack popped) (hfuel : popped.length < fuel)
    (m : StreamCache) (nodes : List TimelyNode) :
    b.buildLoop args fuel stack.reverse m nodes = some (compileAll args popped m nodes) := by
  induction h generalizing fuel m nodes with
  | nil =>
    obtain ⟨fuel, rfl⟩ := Nat.exists_eq_succ_of_ne_zero (Nat.ne_of_gt hfuel)
    rfl
  | @leaf e stack popped he h ih =>
    obtain ⟨fuel, rfl⟩ := Nat.exists_eq_succ_of_ne_zero (Nat.ne_of_gt (Nat.zero_lt_of_lt hfuel))
    have hlt : popped.length < fuel := Nat.lt_of_succ_lt_succ hfuel
    rw [List.reverse_cons]
    cases hop : e.typ with
    | other name =>
      rw [hop] at he
      cases he
    | core op =>
      simp only [buildLoop, compileAll, List.getLast?_concat, List.dropLast_concat, hop]
      cases m.compileCore args e op with
      | error err => rfl
      | ok result => exact ih hlt result.2 (nodes ++ [result.1])
  | @nested e stack popped he h ih =>
    obtain ⟨fuel, rfl⟩ := Nat.exists_eq_succ_of_ne_zero (Nat.ne_of_gt (Nat.zero_lt_of_lt hfuel))
    have hlt : popped.length < fuel := Nat.lt_of_succ_lt_succ hfuel
    rw [List.reverse_cons]
    cases hop : e.typ with
    | core op =>
      rw [hop] at he
      cases he
    | other name =>
      simp only [buildLoop, compileAll, List.getLast?_concat, List.dropLast_concat, hop]
      rw [substepsOf_eq_entries, ← List.reverse_append]
      exact ih hlt m nodes

/-- **The loop compiles in preorder.** -/
theorem Built.buildLoop_eq (hb : b.Built) {L : Substeps} {fuel : ℕ} (hfuel : b.steps.length < fuel) :
    b.buildLoop args fuel (b.substepsOf L).reverse .empty [] =
      some (compileAll args (nesting.preorder b.steps L) .empty []) := by
  have hleaf : ∀ e ∈ b.steps, e.typ.isCore = true → nesting.entries b.steps (nesting.own e) = [] :=
    fun e he hcore => (substepsOf_eq_entries _).symm.trans (hb.leaf e he hcore)
  have hpops := Nesting.Pops.preorder hleaf L .nil
  rw [List.append_nil, List.append_nil, ← substepsOf_eq_entries] at hpops
  refine buildLoop_pops hpops (Nat.lt_of_le_of_lt ?_ hfuel) _ _
  have hnodup := Nesting.preorder_nodup hb.complete.nodup L
  exact (List.subperm_of_subset hnodup fun e he => (root_of_mem_preorder he).1).length_le

/-! ### All core steps -/

/-- What the loop knows when it has popped the steps `done`. -/
structure Loop (steps done : List OperatorStep) (m : StreamCache) (nodes : List TimelyNode) :
    Prop where
  streams : ∀ s stream, m.get? s = some stream ↔ Feeds done s stream
  built : List.Forall₂ (Compiles steps) (done.filter fun e => e.typ.isCore) nodes
  upstream : ∀ pre node post, nodes = pre ++ node :: post → ∀ up ∈ node.ups,
    ∃ node' ∈ pre, node'.stepId = up.stepId ∧ up.port ∈ node'.op.downNames

theorem Loop.empty (steps : List OperatorStep) : Loop steps [] .empty [] where
  streams s stream := by simp [Feeds, Dict.get?, Dict.empty]
  built := .nil
  upstream pre node post h := by simp at h

/-- Steps that can be compiled in this order. -/
structure Ordered (steps : List OperatorStep) : Prop where
  ports : ∀ e ∈ steps, e.WellPorted
  takes : ∀ e ∈ steps, ∀ op, e.typ = .core op → op.Takes e.ups
  ups : ∀ pre e post, steps = pre ++ e :: post → e.typ.isCore = true → ∀ s ∈ e.upIds,
    ∃ x ∈ pre, x.typ.isCore = true ∧ s ∈ x.downIds
  downs : ∀ pre e post, steps = pre ++ e :: post → e.typ.isCore = true → ∀ s ∈ e.downIds,
    ∀ x ∈ pre, x.typ.isCore = true → s ∉ x.downIds

variable {steps done rest : List OperatorStep} {e : OperatorStep}

theorem exists_feeds {s : String} : (∃ stream, Feeds steps s stream) ↔
    ∃ x ∈ steps, x.typ.isCore = true ∧ s ∈ x.downIds := by
  constructor
  · rintro ⟨stream, x, hx, hcore, port, hport, hs, -⟩
    exact ⟨x, hx, hcore, List.mem_flatMap.mpr ⟨port, hport, hs⟩⟩
  · rintro ⟨x, hx, hcore, hs⟩
    obtain ⟨port, hport, hs⟩ := List.mem_flatMap.mp hs
    exact ⟨⟨x.stepId, port.name⟩, x, hx, hcore, port, hport, hs, rfl⟩

theorem feeds_append {s : String} {stream : TimelyStream} : Feeds (done ++ rest) s stream ↔
    Feeds done s stream ∨ Feeds rest s stream := by
  simp only [Feeds, List.mem_append, or_and_right, exists_or]

/-- The operators of the step that feeds a stream have been built. -/
theorem Loop.exists_node {s : String} {up : TimelyStream} (h : Loop steps done m nodes)
    (hports : ∀ e ∈ done, e.WellPorted) (hfeeds : Feeds done s up) :
    ∃ node ∈ nodes, node.stepId = up.stepId ∧ up.port ∈ node.op.downNames := by
  obtain ⟨x, hx, hcore, port, hport, -, rfl⟩ := hfeeds
  have hmem : x ∈ done.filter fun e => e.typ.isCore := List.mem_filter.mpr ⟨hx, hcore⟩
  obtain ⟨node, hnode, hcompiles⟩ := exists_of_mem_forall₂ h.built hmem
  refine ⟨node, hnode, hcompiles.stepId, ?_⟩
  rw [(hports x hx).downs node.op hcompiles.op] at hport
  obtain ⟨name, hname, rfl⟩ := List.mem_map.mp hport
  exact hname

/-- The streams that a step reads are stored. -/
theorem Loop.stored (h : Loop steps done m nodes) (hsteps : Ordered steps)
    (heq : steps = done ++ e :: rest) (hcore : e.typ.isCore = true) :
    ∀ s ∈ e.upIds, (m.get? s).isSome := by
  intro s hs
  obtain ⟨stream, hstream⟩ := exists_feeds.mpr (hsteps.ups done e rest heq hcore s hs)
  rw [(h.streams s stream).mpr hstream]
  rfl

/-- **One round of the loop.** -/
theorem Loop.core {op : CoreOp} (h : Loop steps done m nodes) (hsteps : Ordered steps)
    (heq : steps = done ++ e :: rest) (hop : e.typ = .core op) (hargs : args.raises e = none) :
    ∃ node m', m.compileCore args e op = .ok (node, m') ∧
      Loop steps (done ++ [e]) m' (nodes ++ [node]) := by
  have hmem : e ∈ steps := heq ▸ List.mem_append_right _ List.mem_cons_self
  have hdone : done ⊆ steps := heq ▸ List.subset_append_left _ _
  have hcore : e.typ.isCore = true := by rw [hop]; rfl
  have hdowns : ∀ s ∈ e.downIds, m.get? s = none := by
    intro s hs
    rw [Option.eq_none_iff_forall_ne_some]
    intro stream hstream
    obtain ⟨x, hx, hcoreX, hsX⟩ := exists_feeds.mp ⟨stream, (h.streams s stream).mp hstream⟩
    exact hsteps.downs done e rest heq hcore s hs x hx hcoreX hsX
  obtain ⟨ups, m', hok, hall, hget⟩ := StreamCache.compileCore_spec (hsteps.ports e hmem) hop
    (hsteps.takes e hmem op hop) (h.stored hsteps heq hcore) hdowns hargs
  have hfeeds : List.Forall₂ (Feeds done) e.upIds ups :=
    hall.imp fun s stream hstream => (h.streams s stream).mp hstream
  refine ⟨_, m', hok, fun s stream => ?_, ?_, ?_⟩
  · rw [hget, h.streams, feeds_append]
  · rw [List.filter_append, List.filter_singleton, hcore]
    refine List.rel_append h.built (.cons ⟨rfl, hop, ?_⟩ .nil)
    exact hfeeds.imp fun s stream hs => hs.mono hdone
  · intro pre node post hsplit up hup
    rcases Runs.split_concat hsplit with ⟨rfl, rfl, -⟩ | ⟨post', -, hold⟩
    · obtain ⟨s, -, hs⟩ := exists_of_mem_forall₂ (R := flip (Feeds done)) hfeeds.flip hup
      exact h.exists_node (fun e he => hsteps.ports e (hdone he)) hs
    · exact h.upstream pre node post' hold up hup

theorem Loop.other {name : String} (h : Loop steps done m nodes) (hop : e.typ = .other name) :
    Loop steps (done ++ [e]) m nodes := by
  have hcore : e.typ.isCore = false := by rw [hop]; rfl
  refine ⟨fun s stream => ?_, ?_, h.upstream⟩
  · rw [h.streams, feeds_append]
    exact (or_iff_left (by simp [Feeds, hcore])).symm
  · rw [List.filter_append, List.filter_singleton, hcore]
    exact (List.append_nil _).symm ▸ h.built

/-- The core steps of a list whose arguments raise nothing. -/
def Buildable (args : StepArgs) (steps : List OperatorStep) : Prop :=
  ∀ e ∈ steps, e.typ.isCore = true → args.raises e = none

/-- What is raised for one of the core steps of a list. -/
def RaisedBy (args : StepArgs) (steps : List OperatorStep) (err : BuildError) : Prop :=
  ∃ e ∈ steps, e.typ.isCore = true ∧ ∃ msg, args.raises e = some msg ∧ err = .argument msg

variable (args) in
/-- **The rest of the loop**: it compiles all steps, or raises what the arguments of one raise. -/
theorem Loop.compileAll (h : Loop steps done m nodes) (hsteps : Ordered steps)
    (heq : steps = done ++ rest) :
    (Buildable args rest ∧ ∃ m' nodes', Building.compileAll args rest m nodes = .ok nodes' ∧
      Loop steps steps m' nodes') ∨
    ∃ err, RaisedBy args rest err ∧ Building.compileAll args rest m nodes = .error err := by
  induction rest generalizing done m nodes with
  | nil =>
    rw [List.append_nil] at heq
    exact .inl ⟨List.forall_mem_nil _, m, nodes, rfl, heq ▸ h⟩
  | cons e rest ih =>
    have hnext : steps = done ++ [e] ++ rest := by rw [heq, List.append_assoc]; rfl
    have hlater : ∀ {err}, RaisedBy args rest err → RaisedBy args (e :: rest) err :=
      fun ⟨e', he', hrest⟩ => ⟨e', List.mem_cons_of_mem _ he', hrest⟩
    cases hop : e.typ with
    | core op =>
      have hcore : e.typ.isCore = true := by rw [hop]; rfl
      cases hargs : args.raises e with
      | some msg =>
        have hmem : e ∈ steps := heq ▸ List.mem_append_right _ List.mem_cons_self
        have herr : m.compileCore args e op = .error (.argument msg) :=
          StreamCache.compileCore_raises (hsteps.ports e hmem) (hsteps.takes e hmem op hop)
            (h.stored hsteps heq hcore) hargs
        refine .inr ⟨_, ⟨e, List.mem_cons_self, hcore, msg, hargs, rfl⟩, ?_⟩
        simp only [Building.compileAll, hop, herr]
      | none =>
        obtain ⟨node, m', hok, hloop⟩ := h.core hsteps heq hop hargs
        simp only [Building.compileAll, hop, hok]
        obtain ⟨hall, hrest⟩ | ⟨err, hraised, herr⟩ := ih hloop hnext
        · exact .inl ⟨List.forall_mem_cons.mpr ⟨fun _ => hargs, hall⟩, hrest⟩
        · exact .inr ⟨err, hlater hraised, herr⟩
    | other name =>
      simp only [Building.compileAll, hop]
      obtain ⟨hall, hrest⟩ | ⟨err, hraised, herr⟩ := ih (h.other hop) hnext
      · refine .inl ⟨List.forall_mem_cons.mpr ⟨fun hcore => ?_, hall⟩, hrest⟩
        rw [hop] at hcore
        cases hcore
      · exact .inr ⟨err, hlater hraised, herr⟩

/-! ### Compiled dataflows -/

/-- The Timely operators of a dataflow: those of its core steps, each compiled once and reading the
streams of its ports from the steps that make them, after whose operators it is built. -/
structure Compiled (b : Building) (flow : Substeps) (nodes : List TimelyNode) : Prop where
  built : ∃ order : List OperatorStep, order.Nodup ∧
    (∀ e, e ∈ order ↔ e ∈ b.steps ∧ e.outer.root = flow ∧ e.typ.isCore = true) ∧
    List.Forall₂ (Compiles order) order nodes
  upstream : ∀ pre node post, nodes = pre ++ node :: post → ∀ up ∈ node.ups,
    ∃ node' ∈ pre, node'.stepId = up.stepId ∧ up.port ∈ node'.op.downNames

theorem feeds_filter_core {s : String} {stream : TimelyStream} (h : Feeds steps s stream) :
    Feeds (steps.filter fun e => e.typ.isCore) s stream := by
  obtain ⟨x, hx, hcore, hrest⟩ := h
  exact ⟨x, List.mem_filter.mpr ⟨hx, hcore⟩, hcore, hrest⟩

theorem mem_preorder_flow (hb : b.Built) {ref : ℕ} {flowId : PlainId} :
    e ∈ nesting.preorder b.steps (.flow ref flowId) ↔
      e ∈ b.steps ∧ e.outer.root = .flow ref flowId := by
  refine ⟨root_of_mem_preorder, fun ⟨he, hroot⟩ => hb.complete.mem_preorder he rfl ?_⟩
  rw [← hroot]
  exact around_root e.outer

/-- The steps of a dataflow have different IDs. -/
theorem Built.nodup_stepIds (hb : b.Built) (flow : Substeps) :
    ((b.steps.filter fun e => e.outer.root = flow).map OperatorStep.stepId).Nodup := by
  refine (List.Nodup.of_map _ hb.complete.nodup).filter _ |>.map_on fun e he e' he' hid => ?_
  obtain ⟨he, hroot⟩ := List.mem_filter.mp he
  obtain ⟨he', hroot'⟩ := List.mem_filter.mp he'
  refine hb.stepId e he e' he' ?_ hid
  rw [of_decide_eq_true hroot, of_decide_eq_true hroot']

/-- Core steps that make streams with one ID are one. -/
theorem Built.eq_of_downId {x : OperatorStep} {s : String} (hb : b.Built) (he : e ∈ b.steps)
    (hx : x ∈ b.steps) (hroot : e.outer.root = x.outer.root) (hcore : e.typ.isCore = true)
    (hcoreX : x.typ.isCore = true) (hs : s ∈ e.downIds) (hsX : s ∈ x.downIds) : e = x := by
  have hname : ∀ c ∈ b.steps, c.typ.isCore = true → s ∈ c.downIds →
      ∃ name : PlainId, s = c.stepId ++ "." ++ name.id := by
    intro c hc hcoreC hsC
    cases hop : c.typ with
    | other name =>
      rw [hop] at hcoreC
      cases hcoreC
    | core op =>
      rw [(hb.ports c hc).downIds hop] at hsC
      obtain ⟨name, -, rfl⟩ := List.mem_map.mp hsC
      exact ⟨name, rfl⟩
  obtain ⟨name, rfl⟩ := hname e he hcore hs
  obtain ⟨name', heq⟩ := hname x hx hcoreX hsX
  exact hb.stepId e he x hx hroot (eq_of_append_period heq).1

theorem Built.ordered (hb : b.Built) (hs : b.Sourced) (hfed : b.Fed) (ref : ℕ) (flowId : PlainId) :
    Ordered (nesting.preorder b.steps (.flow ref flowId)) := by
  have hnodup := Nesting.preorder_nodup hb.complete.nodup (.flow ref flowId)
  have hmem : ∀ {e}, e ∈ nesting.preorder b.steps (.flow ref flowId) → e ∈ b.steps :=
    fun he => (root_of_mem_preorder he).1
  refine ⟨fun e he => hb.ports e (hmem he), fun e he => hfed e (hmem he), ?_, ?_⟩
  · intro pre e post heq hcore s hup
    have he : e ∈ nesting.preorder b.steps (.flow ref flowId) :=
      heq ▸ List.mem_append_right _ List.mem_cons_self
    obtain ⟨hstep, hroot⟩ := root_of_mem_preorder he
    obtain ⟨x, hx, hcoreX, hdown, hready⟩ := hs.steps e hstep hcore s hup
    have hleaf : nesting.entries b.steps (nesting.own e) = [] :=
      (substepsOf_eq_entries _).symm.trans (hb.leaf e hstep hcore)
    have haround : nesting.Around (.flow ref flowId) (nesting.own e) := by
      rw [← show e.substeps.root = .flow ref flowId from hroot]
      exact around_root e.substeps
    have hbefore := Nesting.before_of_ready hb.complete hstep hleaf rfl haround hready
    rw [heq] at hbefore hnodup
    exact ⟨x, Nesting.mem_of_pair_sublist hnodup hbefore, hcoreX, hdown⟩
  · intro pre e post heq hcore s hdown x hx hcoreX hdownX
    rw [heq] at hnodup
    have he : e ∈ nesting.preorder b.steps (.flow ref flowId) :=
      heq ▸ List.mem_append_right _ List.mem_cons_self
    have hxmem : x ∈ nesting.preorder b.steps (.flow ref flowId) :=
      heq ▸ List.mem_append_left _ hx
    obtain ⟨hstep, hroot⟩ := root_of_mem_preorder he
    obtain ⟨hstepX, hrootX⟩ := root_of_mem_preorder hxmem
    obtain rfl := hb.eq_of_downId hstep hstepX (hroot.trans hrootX.symm) hcore hcoreX hdown hdownX
    exact (List.nodup_append.mp hnodup).2.2 e hx e List.mem_cons_self rfl

/-- The steps of a dataflow, with those of its substeps. -/
def stepsOf (b : Building) (flow : Substeps) : List OperatorStep :=
  b.steps.filter fun e => e.outer.root = flow

theorem mem_stepsOf {flow : Substeps} : e ∈ b.stepsOf flow ↔ e ∈ b.steps ∧ e.outer.root = flow := by
  simp [stepsOf]

/-- The compilation of a dataflow gives the operators of its core steps, but for the check that there
are inputs and outputs, or raises what the arguments of one of them raise. -/
def CompilesTo (b : Building) (args : StepArgs) (flow : Substeps)
    (result : Except BuildError (List TimelyNode)) : Prop :=
  (Buildable args (b.stepsOf flow) ∧ ∃ nodes, b.Compiled flow nodes ∧ result = checkEnds nodes) ∨
    ∃ err, RaisedBy args (b.stepsOf flow) err ∧ result = .error err

theorem Built.compiled (hb : b.Built) (hs : b.Sourced) (hfed : b.Fed) (args : StepArgs) (ref : ℕ)
    (flowId : PlainId) {fuel : ℕ} (hfuel : b.steps.length < fuel) :
    ∃ result, b.buildProductionDataflow args ref flowId fuel = some result ∧
      b.CompilesTo args (.flow ref flowId) result := by
  have hmem : ∀ e, e ∈ nesting.preorder b.steps (.flow ref flowId) ↔
      e ∈ b.stepsOf (.flow ref flowId) := fun e => (mem_preorder_flow hb).trans mem_stepsOf.symm
  refine ⟨_, by rw [buildProductionDataflow, hb.buildLoop_eq hfuel]; rfl, ?_⟩
  obtain ⟨hall, m, nodes, hok, hloop⟩ | ⟨err, ⟨e, he, hraises⟩, herr⟩ :=
    (Loop.empty _).compileAll args (hb.ordered hs hfed ref flowId) (List.nil_append _).symm
  · refine .inl ⟨fun e he => hall e ((hmem e).mpr he), nodes,
      ⟨⟨(nesting.preorder b.steps (.flow ref flowId)).filter fun e => e.typ.isCore, ?_,
        fun e => ?_, ?_⟩, hloop.upstream⟩, ?_⟩
    · exact (Nesting.preorder_nodup hb.complete.nodup (.flow ref flowId)).filter _
    · rw [List.mem_filter, mem_preorder_flow hb, and_assoc]
    · exact hloop.built.imp fun e node h =>
        ⟨h.stepId, h.op, h.ups.imp fun s stream => feeds_filter_core⟩
    · rw [hok]
      rfl
  · refine .inr ⟨err, ⟨e, (hmem e).mp he, hraises⟩, ?_⟩
    rw [herr]
    rfl

variable {actions : List BuildAction} {new : List Handle}

/-- What holds of the streams of scoped runs. -/
theorem sourced_of_run (hscoped : Runs.Along step Scoped init actions)
    (h : Runs.run step init actions = some (b, new)) (hdone : b.calls = []) :
    b.Sourced ∧ b.Fed := by
  have hall : b.Shape ∧ b.Sourced ∧ b.Fed := by
    refine Runs.run_induct (P := fun b => b.Shape ∧ b.Sourced ∧ b.Fed)
      (fun b action b' new hb hq hstep => ?_)
      ⟨shape_init, sourced_init, fun e he => by cases he⟩
      ((along_distinct h hdone).and hscoped) h
    have hm := moves_of_step hstep
    exact ⟨hb.1.of_moves hm, hb.2.1.of_moves hb.1 hq.1 hq.2 hm, hb.2.2.of_moves hb.1 hm⟩
  exact hall.2

/-- **Step IDs are unique** in every dataflow that can be built. -/
theorem stepIds_nodup (h : Runs.run step init actions = some (b, new)) (hdone : b.calls = [])
    (flow : Substeps) :
    ((b.steps.filter fun e => e.outer.root = flow).map OperatorStep.stepId).Nodup :=
  (built_of_run h hdone).nodup_stepIds flow

/-- **Scoped dataflows are compiled**, whatever the arguments of their steps: each core step once,
after those that make its streams, unless the arguments of one raise something. -/
theorem buildProductionDataflow_compiled (hscoped : Runs.Along step Scoped init actions)
    (h : Runs.run step init actions = some (b, new)) (hdone : b.calls = []) (args : StepArgs)
    (ref : ℕ) (flowId : PlainId) {fuel : ℕ} (hfuel : b.steps.length < fuel) :
    ∃ result, b.buildProductionDataflow args ref flowId fuel = some result ∧
      b.CompilesTo args (.flow ref flowId) result := by
  obtain ⟨hs, hfed⟩ := sourced_of_run hscoped h hdone
  exact (built_of_run h hdone).compiled hs hfed args ref flowId hfuel

/-- `op.branch("b", op.input("inp", flow, ...), ...)`, with `op.map("m", b.trues, ...)` merged with
`b.falses`, and an output. -/
def forked : List BuildAction :=
  [.dataflow "df", .callCore .input "inp" [0], .callCore .branch "b" [1],
    .call "map" "m" [.port .up [2]], .callCore .flatMapBatch "flat_map_batch" [4],
    .ret [.port .down [5]], .callCore .merge "merge" [6, 3], .callCore .output "out" [7]]

theorem exists_run_forked :
    ∃ b new, Runs.run step init forked = some (b, new) ∧ b.calls = [] := by
  have hsome : ((Runs.run step init forked).filter fun out => out.1.calls = []).isSome := by
    decide +kernel
  obtain ⟨⟨b, new⟩, hout⟩ := Option.isSome_iff_exists.mp hsome
  obtain ⟨h, hdone⟩ := Option.filter_eq_some_iff.mp hout
  exact ⟨b, new, h, of_decide_eq_true hdone⟩

theorem stepIds_nodup_forked : ∃ b new, Runs.run step init forked = some (b, new) ∧
    ((b.steps.filter fun e => e.outer.root = .flow 0 df).map OperatorStep.stepId).Nodup := by
  obtain ⟨b, new, h, hdone⟩ := exists_run_forked
  exact ⟨b, new, h, stepIds_nodup h hdone (.flow 0 df)⟩

/-- Arguments that raise nothing. -/
def soundArgs : StepArgs := ⟨fun _ => none, fun _ => none⟩

/-- Sinks of another type. -/
def otherSinks : StepArgs where
  extract _ := none
  build step := if step.typ = .core .output then some "unknown sink type" else none

theorem buildProductionDataflow_compiled_forked :
    ∃ b new, Runs.run step init forked = some (b, new) ∧
      (∃ nodes, b.Compiled (.flow 0 df) nodes ∧
        b.buildProductionDataflow soundArgs 0 df (b.steps.length + 1) = some (checkEnds nodes)) ∧
      b.buildProductionDataflow otherSinks 0 df (b.steps.length + 1) =
        some (.error (.argument "unknown sink type")) := by
  obtain ⟨b, new, h, hdone⟩ := exists_run_forked
  have hscoped : Runs.Along step Scoped init forked := by decide +kernel
  obtain ⟨result, hbuild, hcompiles⟩ :=
    buildProductionDataflow_compiled hscoped h hdone soundArgs 0 df (Nat.lt_succ_self _)
  have hother : ∀ out ∈ Runs.run step init forked, out.1.buildProductionDataflow otherSinks 0 df
      (out.1.steps.length + 1) = some (.error (.argument "unknown sink type")) := by decide +kernel
  refine ⟨b, new, h, ?_, hother _ h⟩
  obtain ⟨-, nodes, hcompiled, rfl⟩ | ⟨err, ⟨e, -, -, msg, hraises, -⟩, -⟩ := hcompiles
  · exact ⟨nodes, hcompiled, hbuild⟩
  · cases hraises

/-- A builder that leaks a stream of its scope to a step that is stored before its own. -/
def leaked : List BuildAction :=
  [.dataflow "df", .callCore .input "inp" [0], .call "outer" "a" [.port .up [1]],
    .callCore .flatMapBatch "x" [2], .call "leak" "l" [.port .up [1]], .ret [.port .down [3]],
    .callCore .output "out" [5], .ret [.port .down [3]]]

-- The condition is needed: the output is compiled before the step that makes its stream.
example : (Runs.run step init leaked).bind (fun out => out.1.buildProductionDataflow soundArgs 0 df 6) =
    some (.error (.unknown "df.a.x.down")) := by
  decide +kernel

end Building
end Bytewax
