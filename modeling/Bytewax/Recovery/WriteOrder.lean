import Bytewax.Recovery.WriteSystem

/-!
# Bytewax.Recovery.WriteOrder — the order in which an execution writes

In whatever order the operators of `write_recovery` are activated, and wherever the execution
crashes, the rows that it has written are in the order that resuming relies on.
-/

namespace Bytewax

open Std (TreeMap TreeSet)

namespace Recovery

variable {S K D W : Type}

/-! ### The invariant -/

section

open EpochOp

variable (cfg : RecoveryWrite S K D W) (target : ℕ → ℕ)

/-- The frontiers that have been sent: those of a worker go up and leave out no epoch, each is sent
before it, and everything before it is written. -/
structure Sent (s : WriteState S K D W) (executed : Prop) : Prop where
  low : ∀ w, ∀ cap ∈ s.frontier w, cfg.resumeFrom.resumeEpoch ≤ cap
  worker : ∀ x ∈ s.sent, x.2.workerIndex < cfg.workerCount
  past : ∀ x ∈ s.sent, x.1 < x.2.workerFrontier
  reached : ∀ x ∈ s.sent, ∀ cap ∈ s.frontier x.2.workerIndex, x.2.workerFrontier ≤ cap
  chain : ∀ x ∈ s.sent, ∀ y ∈ s.sent, x.2.workerIndex = y.2.workerIndex → x.1 ≤ y.1 →
    x.2.workerFrontier ≤ y.2.workerFrontier
  held : ∀ x ∈ s.sent, ∀ v < cfg.workerCount, ∀ cap ∈ held (s.snap v), x.2.workerFrontier ≤ cap
  covered : ∀ v e, cfg.resumeFrom.resumeEpoch ≤ e →
    ((∃ cap ∈ s.frontier v, e < cap) ∨
      ∃ x ∈ s.sent, x.2.workerIndex = v ∧ e < x.2.workerFrontier) →
    ∃ x ∈ s.sent, x.2.workerIndex = v ∧ x.1 ≤ e ∧ e < x.2.workerFrontier
  executed : s.sent ≠ [] → executed

/-- What holds after the steps `is`, which have put out `o`. -/
structure WriteInv (is : List (WriteStep S K D)) (s : WriteState S K D W)
    (o : List (WriteEvent S K D)) : Prop where
  ex : OnWorkers (fun w => is.filterMap (WriteStep.ex? w)) s.ex
    (fun w => o.filterMap (WriteEvent.ex? w))
  snap : OnWorkers (fun w => is.filterMap (WriteStep.snap? w)) s.snap
    (fun w => o.filterMap (WriteEvent.snap? w))
  front : OnWorkers (fun w => is.filterMap (WriteStep.front? w)) s.front
    (fun w => o.filterMap (WriteEvent.front? w))
  arrived : (s.exArrived = false ∧ ∀ w e, itemsAt (is.filterMap (WriteStep.ex? w)) e = []) ∨
    (s.exArrived = true ∧ ∃ w₀ < cfg.workerCount, ∃ item, ∀ w e,
      itemsAt (is.filterMap (WriteStep.ex? w)) e =
        if w = w₀ ∧ e = cfg.resumeFrom.resumeEpoch then [item] else [])
  snaps : ∀ w e, ∀ item ∈ itemsAt (is.filterMap (WriteStep.snap? w)) e, item.2.2.2.snapEpoch = e
  fronts : ∀ w e, ∀ item ∈ itemsAt (is.filterMap (WriteStep.front? w)) e,
    (e, item.2.2.2) ∈ s.sent ∧ target item.2.2.2.workerIndex = w
  delivered : ∀ x ∈ s.arrived, target x.2.workerIndex < cfg.workerCount ∧
    ∃ item ∈ itemsAt (is.filterMap (WriteStep.front? (target x.2.workerIndex))) x.1,
      item.2.2.2 = x.2
  sent : Sent cfg s (.ex ∈ durable cfg.resumeFrom.resumeEpoch o)
  ordered : (durable cfg.resumeFrom.resumeEpoch o).Pairwise DurableWrite.MayPrecede

variable {cfg target} {is : List (WriteStep S K D)} {s : WriteState S K D W}
  {o : List (WriteEvent S K D)}

theorem WriteInv.init : WriteInv cfg target [] cfg.init [] where
  ex := .start cfg.exWriters cfg.localParts
  snap := .start cfg.snapWriters cfg.localParts
  front := .start cfg.frontWriters cfg.localParts
  arrived := .inl ⟨rfl, fun w e => rfl⟩
  snaps w e item hitem := by cases hitem
  fronts w e item hitem := by cases hitem
  delivered := by simp [RecoveryWrite.init]
  sent := {
    low := fun w cap hcap => Nat.le_of_eq (Option.some.inj hcap)
    worker := by simp [RecoveryWrite.init]
    past := by simp [RecoveryWrite.init]
    reached := by simp [RecoveryWrite.init]
    chain := by simp [RecoveryWrite.init]
    held := by simp [RecoveryWrite.init]
    covered := fun v e he hlt => by
      simp [RecoveryWrite.init] at hlt
      omega
    executed := fun h => absurd rfl h }
  ordered := .nil

/-! ### Executions -/

/-- What is written of what has arrived at one writer is written there. -/
theorem flatMap_exBatch (w₀ : ℕ)
    (hother : ∀ w call, .ex w call ∈ o → w ≠ w₀ → batchOf call = []) :
    o.flatMap WriteEvent.exBatch = (o.filterMap (WriteEvent.ex? w₀)).flatMap batchOf := by
  induction o with
  | nil => rfl
  | cons event o ih =>
    rw [List.flatMap_cons, ih fun w call hin => hother w call (List.mem_cons_of_mem _ hin)]
    cases event with
    | ex w call =>
      by_cases hw : w = w₀
      · have hsome : (WriteEvent.ex w call : WriteEvent S K D).ex? w₀ = some call := if_pos hw
        rw [List.filterMap_cons_some hsome, List.flatMap_cons]
        rfl
      · have hnone : (WriteEvent.ex w call : WriteEvent S K D).ex? w₀ = none := if_neg hw
        rw [List.filterMap_cons_none hnone]
        show batchOf call ++ _ = _
        rw [hother w call List.mem_cons_self hw, List.nil_append]
    | snap w call => rfl
    | front w call => rfl
    | commit w call => rfl

/-- If all values are of one epoch and partition, all of them are written there. -/
theorem flatMap_batchOf {V : Type} {calls : List (ℕ × WriteCall ℕ V)} {e p : ℕ}
    (hall : ∀ call ∈ calls, ∀ part batch, call.2 = .write part batch → batch ≠ [] →
      call.1 = e ∧ part = p) : calls.flatMap batchOf = writtenTo e p calls := by
  refine List.flatMap_congr fun call hcall => ?_
  cases hc : call.2 with
  | write part batch =>
    by_cases hnil : batch = []
    · simp [batchOf, WriteCall.batchFor, hc, hnil]
    · obtain ⟨he, hp⟩ := hall call hcall part batch hc hnil
      simp [batchOf, WriteCall.batchFor, hc, he, hp]
  | built part => simp [batchOf, WriteCall.batchFor, hc]
  | dropped part => simp [batchOf, WriteCall.batchFor, hc]
  | clock => simp [batchOf, WriteCall.batchFor, hc]

theorem mem_exCalls {w : ℕ} {call : ℕ × WriteCall ℕ ExecutionMeta} (h : .ex w call ∈ o) :
    call ∈ o.filterMap (WriteEvent.ex? w) := List.mem_filterMap.2 ⟨_, h, if_pos rfl⟩

/-- **The execution is recorded once.** -/
theorem exOnce {t : ℕ → WriterState ExecutionMeta W}
    (hex : OnWorkers (fun w => is.filterMap (WriteStep.ex? w)) t
      (fun w => o.filterMap (WriteEvent.ex? w)))
    {resumeEpoch w₀ : ℕ} {item : ℕ × ℕ × ℕ × ExecutionMeta}
    (harrived : ∀ w e, itemsAt (is.filterMap (WriteStep.ex? w)) e =
      if w = w₀ ∧ e = resumeEpoch then [item] else []) :
    o.flatMap WriteEvent.exBatch =
        writtenTo resumeEpoch item.2.1 (o.filterMap (WriteEvent.ex? w₀)) ∧
      (o.flatMap WriteEvent.exBatch).length ≤ 1 := by
  -- a value that is written is that of the item
  have hwhere : ∀ w call, call ∈ o.filterMap (WriteEvent.ex? w) → ∀ part batch,
      call.2 = .write part batch → batch ≠ [] →
        w = w₀ ∧ call.1 = resumeEpoch ∧ part = item.2.1 := by
    intro w call hcall part batch heq hne
    obtain ⟨v, hv⟩ := List.exists_mem_of_ne_nil _ hne
    have hwritten : v ∈ writtenTo call.1 part (o.filterMap (WriteEvent.ex? w)) := by
      refine List.mem_flatMap.2 ⟨call, hcall, ?_⟩
      rw [if_pos rfl, heq]
      simpa [WriteCall.batchFor] using hv
    have hvalues : v ∈ valuesFor part (itemsAt (is.filterMap (WriteStep.ex? w)) call.1) := by
      rw [← hex.conserves w call.1 part]
      exact List.mem_append_left _ hwritten
    rw [harrived w call.1] at hvalues
    obtain ⟨item', hitem, hpart, -⟩ := mem_valuesFor.1 hvalues
    split at hitem
    · next hat =>
      obtain rfl := List.mem_singleton.1 hitem
      exact ⟨hat.1, hat.2, hpart.symm⟩
    · cases hitem
  have hone : o.flatMap WriteEvent.exBatch =
      writtenTo resumeEpoch item.2.1 (o.filterMap (WriteEvent.ex? w₀)) := by
    rw [flatMap_exBatch w₀ fun w call hin hw => ?_]
    · exact flatMap_batchOf fun call hcall part batch heq hne =>
        (hwhere w₀ call hcall part batch heq hne).2
    · rw [List.eq_nil_iff_forall_not_mem]
      intro r hr
      obtain ⟨part, batch, heq, hr⟩ := mem_batchOf hr
      exact hw (hwhere w call (mem_exCalls hin) part batch heq (List.ne_nil_of_mem hr)).1
  refine ⟨hone, ?_⟩
  have hconserves := hex.conserves w₀ resumeEpoch item.2.1
  rw [harrived, if_pos ⟨rfl, rfl⟩] at hconserves
  rw [hone]
  have hlength : (valuesFor item.2.1 [item]).length = 1 := by simp [valuesFor]
  rw [← hconserves, List.length_append] at hlength
  omega

/-! ### Steps -/

variable {s' : WriteState S K D W} {o' : List (WriteEvent S K D)} {w : ℕ}

section

variable {Key V : Type} {f : ℕ → WriteStep S K D → Option (WriterActivation Key V)}
  {g : ℕ → WriteEvent S K D → Option (ℕ × WriteCall ℕ V)} {t : ℕ → WriterState V W}
  {i : WriteStep S K D}

omit cfg target s in
/-- A step that is not of these writers. -/
theorem filterMap_concat_none {v : ℕ} (hf : f v i = none) :
    (is ++ [i]).filterMap (f v) = is.filterMap (f v) := by
  rw [List.filterMap_append, List.filterMap_cons_none hf, List.filterMap_nil, List.append_nil]

theorem onWorkers_frame
    (h : OnWorkers (fun v => is.filterMap (f v)) t fun v => o.filterMap (g v))
    (hf : ∀ v, f v i = none) (hg : ∀ v, ∀ event ∈ o', g v event = none) :
    OnWorkers (fun v => (is ++ [i]).filterMap (f v)) t fun v => (o ++ o').filterMap (g v) := by
  have his : (fun v => (is ++ [i]).filterMap (f v)) = fun v => is.filterMap (f v) := by
    ext1 v
    exact filterMap_concat_none (hf v)
  have ho : (fun v => (o ++ o').filterMap (g v)) = fun v => o.filterMap (g v) := by
    ext1 v
    rw [List.filterMap_append, List.filterMap_eq_nil_iff.2 (hg v), List.append_nil]
  rwa [his, ho]

variable (i) in
/-- A writer is activated. -/
theorem onWorkers_activate (event : ℕ × WriteCall ℕ V → WriteEvent S K D)
    (h : OnWorkers (fun v => is.filterMap (f v)) t fun v => o.filterMap (g v))
    {a : WriterActivation Key V} (hf : ∀ v, f v i = if w = v then some a else none)
    (hg : ∀ v c, g v (event c) = if w = v then some c else none) {writers : Writers ℕ V W}
    {localParts : List ℕ} {t' : WriterState V W} {calls : List (ℕ × WriteCall ℕ V)}
    (hact : (partdWrite writers localParts w).activate (t w) a = some (t', calls)) :
    OnWorkers (fun v => (is ++ [i]).filterMap (f v)) (Function.update t w t')
        (fun v => (o ++ calls.map event).filterMap (g v)) ∧
      (∀ call ∈ calls, (held (t w)).Admits call.1) ∧ (calls.map Prod.fst).Pairwise (· ≤ ·) ∧
      ∀ v, (held (t v)).Le (held (Function.update t w t' v)) := by
  have his : (fun v => (is ++ [i]).filterMap (f v)) =
      Function.update (fun v => is.filterMap (f v)) w (is.filterMap (f w) ++ [a]) := by
    ext1 v
    rw [List.filterMap_append]
    by_cases hv : w = v
    · subst hv
      rw [Function.update_self, List.filterMap_cons_some ((hf w).trans (if_pos rfl))]
      rfl
    · rw [Function.update_of_ne (Ne.symm hv),
        List.filterMap_cons_none ((hf v).trans (if_neg hv)), List.filterMap_nil, List.append_nil]
  have ho : (fun v => (o ++ calls.map event).filterMap (g v)) =
      Function.update (fun v => o.filterMap (g v)) w (o.filterMap (g w) ++ calls) := by
    ext1 v
    rw [List.filterMap_append, List.filterMap_map]
    by_cases hv : w = v
    · subst hv
      have hid : g w ∘ event = some := by
        ext1 c
        exact (hg w c).trans (if_pos rfl)
      rw [Function.update_self, hid, List.filterMap_some]
    · have hnone : g v ∘ event = fun _ => none := by
        ext1 c
        exact (hg v c).trans (if_neg hv)
      rw [Function.update_of_ne (Ne.symm hv), hnone, List.filterMap_none, List.append_nil]
  rw [his, ho]
  exact h.activate hact

end

/-- What has been sent stays sent. -/
theorem Sent.mono {executed executed' : Prop} (h : Sent cfg s executed)
    (hfrontier : s'.frontier = s.frontier) (hsent : s'.sent = s.sent)
    (hheld : ∀ v, (EpochOp.held (s.snap v)).Le (EpochOp.held (s'.snap v)))
    (hexecuted : executed → executed') : Sent cfg s' executed' where
  low := by rw [hfrontier]; exact h.low
  worker := by rw [hsent]; exact h.worker
  past := by rw [hsent]; exact h.past
  reached := by rw [hsent, hfrontier]; exact h.reached
  chain := by rw [hsent]; exact h.chain
  held x hx v hv cap hcap := by
    rw [hsent] at hx
    obtain ⟨cap₀, hcap₀, hle⟩ := hheld v cap hcap
    exact Nat.le_trans (h.held x hx v hv cap₀ hcap₀) hle
  covered := by rw [hsent, hfrontier]; exact h.covered
  executed hne := hexecuted (h.executed (by rwa [hsent] at hne))

/-- The row of the execution arrives at most once. -/
theorem WriteInv.arrive (h : WriteInv cfg target is s o) {a : WriterActivation ℕ ExecutionMeta}
    (hallowed : cfg.Allowed target s (.ex w a)) :
    ((s.exArrived || !a.items.isEmpty) = false ∧
        ∀ v e, itemsAt ((is ++ [WriteStep.ex w a]).filterMap (WriteStep.ex? v)) e = []) ∨
      ((s.exArrived || !a.items.isEmpty) = true ∧ ∃ w₀ < cfg.workerCount, ∃ item, ∀ v e,
        itemsAt ((is ++ [WriteStep.ex w a]).filterMap (WriteStep.ex? v)) e =
          if v = w₀ ∧ e = cfg.resumeFrom.resumeEpoch then [item] else []) := by
  obtain ⟨hw, hitems⟩ := hallowed
  have hnew : ∀ v e, itemsAt ((is ++ [WriteStep.ex w a]).filterMap (WriteStep.ex? v)) e =
      itemsAt (is.filterMap (WriteStep.ex? v)) e ++
        if w = v then (Keyed.valuesOf e a.items).flatten else [] := by
    intro v e
    rw [List.filterMap_append]
    by_cases hv : w = v
    · have hone : [(WriteStep.ex w a : WriteStep S K D)].filterMap (WriteStep.ex? v) = [a] :=
        List.filterMap_cons_some (if_pos hv)
      rw [hone, itemsAt_append, itemsAt_singleton, if_pos hv]
    · have hnone : [(WriteStep.ex w a : WriteStep S K D)].filterMap (WriteStep.ex? v) = [] :=
        List.filterMap_cons_none (if_neg hv)
      rw [hnone, List.append_nil, if_neg hv, List.append_nil]
  rcases hitems with hnil | ⟨harrived, hitems⟩
  · have hsame : ∀ v e, itemsAt ((is ++ [WriteStep.ex w a]).filterMap (WriteStep.ex? v)) e =
        itemsAt (is.filterMap (WriteStep.ex? v)) e := by
      intro v e
      rw [hnew, hnil]
      simp
    simp only [hsame]
    rw [hnil]
    simpa using h.arrived
  · obtain ⟨-, hnone⟩ := h.arrived.resolve_right fun hsome => by
      rw [hsome.1] at harrived
      cases harrived
    obtain ⟨m, ms, hm, hone, hms⟩ := List.map_eq_cons_iff.1 hitems
    obtain ⟨hepoch, hbatch⟩ := Prod.mk.inj hone
    obtain ⟨item, rest, hitem, -, hrest⟩ := List.map_eq_cons_iff.1 hbatch
    replace hitems : a.items = [(cfg.resumeFrom.resumeEpoch, [item])] := by
      rw [hm, List.map_eq_nil_iff.1 hms, ← hepoch, ← List.map_eq_nil_iff.1 hrest, ← hitem]
    refine .inr ⟨by rw [hitems]; simp, w, hw, item, fun v e => ?_⟩
    rw [hnew, hnone, hitems, Keyed.valuesOf_cons, Keyed.valuesOf_nil, List.nil_append]
    by_cases hv : w = v
    · by_cases he : e = cfg.resumeFrom.resumeEpoch
      · simp [hv, he]
      · simp [hv, he, Ne.symm he]
    · simp [hv, Ne.symm hv]

theorem durable_ex {resumeEpoch : ℕ} {calls : List (ℕ × WriteCall ℕ ExecutionMeta)} :
    durable resumeEpoch (calls.map (WriteEvent.ex w) : List (WriteEvent S K D)) =
      (calls.flatMap batchOf).map fun _ => .ex := by
  rw [durable, List.flatMap_map, List.map_flatMap]
  rfl

/-- **A writer of executions is activated.** -/
theorem WriteInv.exStep (h : WriteInv cfg target is s o) {a : WriterActivation ℕ ExecutionMeta}
    (hallowed : cfg.Allowed target s (.ex w a)) (hs : cfg.step s (.ex w a) = some (s', o')) :
    WriteInv cfg target (is ++ [WriteStep.ex w a]) s' (o ++ o') := by
  obtain ⟨⟨t, calls⟩, hact, hs⟩ := Option.bind_eq_some_iff.1 hs
  cases hs
  obtain ⟨hex, -⟩ := onWorkers_activate (.ex w a) (.ex w) h.ex (fun v => rfl) (fun v c => rfl) hact
  have harrived := h.arrive hallowed
  -- so there is at most one row of it
  have hlength : ((o ++ calls.map (WriteEvent.ex w)).flatMap WriteEvent.exBatch).length ≤ 1 := by
    rcases harrived with ⟨-, hnone⟩ | ⟨-, w₀, -, item, hitem⟩
    · have hempty : ∀ w' call, WriteEvent.ex w' call ∈ o ++ calls.map (WriteEvent.ex w) →
          batchOf call = [] := by
        intro w' call hin
        rw [List.eq_nil_iff_forall_not_mem]
        intro r hr
        obtain ⟨item, hitem, -⟩ := hex.arrived (mem_exCalls hin) hr
        rw [hnone] at hitem
        cases hitem
      rw [List.flatMap_eq_nil_iff.2 fun event hin => ?_]
      · exact Nat.zero_le 1
      · cases event with
        | ex w' call => exact hempty w' call hin
        | snap w' call => rfl
        | front w' call => rfl
        | commit w' call => rfl
    · exact (exOnce hex hitem).2
  rw [List.flatMap_append, List.length_append] at hlength
  have hnew : (calls.map (WriteEvent.ex (S := S) (K := K) (D := D) w)).flatMap
      WriteEvent.exBatch = calls.flatMap batchOf := List.flatMap_map ..
  rw [hnew] at hlength
  refine ⟨hex, onWorkers_frame h.snap (fun _ => rfl) fun _ => List.forall_mem_map.2 fun _ _ => rfl,
    onWorkers_frame h.front (fun _ => rfl) fun _ => List.forall_mem_map.2 fun _ _ => rfl,
    harrived, fun v e item hitem => ?_, fun v e item hitem => ?_, fun x hx => ?_, ?_, ?_⟩
  · rw [filterMap_concat_none rfl] at hitem
    exact h.snaps v e item hitem
  · rw [filterMap_concat_none rfl] at hitem
    exact h.fronts v e item hitem
  · rw [filterMap_concat_none rfl]
    exact h.delivered x hx
  · exact h.sent.mono rfl rfl (fun v t ht => ⟨t, ht, Nat.le_refl t⟩) ex_mem_durable_append
  · rw [durable_append, durable_ex]
    refine List.pairwise_append.2 ⟨h.ordered, ?_, fun x hx y hy => ?_⟩
    · have hle : (calls.flatMap batchOf).length ≤ 1 := by omega
      match calls.flatMap batchOf, hle with
      | [], _ => exact .nil
      | [r], _ => exact List.pairwise_singleton _ _
    · obtain ⟨r, hr, rfl⟩ := List.mem_map.1 hy
      have hpos := List.length_pos_of_mem hr
      have hold : .ex ∉ durable cfg.resumeFrom.resumeEpoch o := by
        rw [ex_mem_durable, not_not, ← List.length_eq_zero_iff]
        omega
      cases x with
      | ex => exact absurd hx hold
      | snap stepId stateKey since serChange => exact trivial
      | front i n =>
        -- a frontier is only sent when the execution is written
        obtain ⟨w', call, hin, r', hr', -⟩ := front_mem_durable hx
        obtain ⟨item, hitem, hval⟩ := h.front.arrived (mem_frontCalls.2 hin) hr'
        exact absurd (h.sent.executed (List.ne_nil_of_mem (h.fronts _ _ item hitem).1)) hold

/-- What has arrived has arrived before or now. -/
theorem mem_itemsAt_concat {Key V : Type} {f : WriteStep S K D → Option (WriterActivation Key V)}
    {i : WriteStep S K D} {e : ℕ} {item : ℕ × ℕ × Key × V}
    (h : item ∈ itemsAt ((is ++ [i]).filterMap f) e) : item ∈ itemsAt (is.filterMap f) e ∨
      ∃ a, f i = some a ∧ ∃ m ∈ a.items, m.1 = e ∧ item ∈ m.2 := by
  rw [List.filterMap_append, itemsAt_append] at h
  refine (List.mem_append.1 h).imp_right fun hnew => ?_
  cases ha : f i with
  | none =>
    rw [List.filterMap_cons_none ha] at hnew
    cases hnew
  | some a =>
    rw [List.filterMap_cons_some ha] at hnew
    replace hnew : item ∈ itemsAt [a] e := hnew
    rw [itemsAt_singleton] at hnew
    obtain ⟨batch, hbatch, hitem⟩ := List.mem_flatten.1 hnew
    exact ⟨a, rfl, (e, batch), Keyed.mem_valuesOf.1 hbatch, rfl, hitem⟩

theorem snap_mem_durable {resumeEpoch : ℕ}
    {calls : List (ℕ × WriteCall ℕ (SerializedSnapshot S K D))} {y : DurableWrite S K D} (h : y ∈ durable resumeEpoch (calls.map (WriteEvent.snap w))) :
    ∃ call ∈ calls, ∃ r ∈ batchOf call,
      y = .snap r.stepId r.stateKey (r.snapEpoch - resumeEpoch) r.serChange := by
  obtain ⟨event, hevent, hy⟩ := List.mem_flatMap.1 h
  obtain ⟨call, hcall, rfl⟩ := List.mem_map.1 hevent
  obtain ⟨r, hr, rfl⟩ := List.mem_map.1 hy
  exact ⟨call, hcall, r, hr, rfl⟩

/-- No frontier that has been written is past an epoch that a writer of snapshots still holds. -/
theorem WriteInv.front_le_held (h : WriteInv cfg target is s o) (hw : w < cfg.workerCount)
    {i n cap : ℕ} (hfront : .front i n ∈ durable cfg.resumeFrom.resumeEpoch o)
    (hcap : cap ∈ held (s.snap w)) : n ≤ cap - cfg.resumeFrom.resumeEpoch := by
  obtain ⟨w', call, hin, r, hr, -, rfl⟩ := front_mem_durable hfront
  obtain ⟨item, hitem, rfl⟩ := h.front.arrived (mem_frontCalls.2 hin) hr
  exact Nat.sub_le_sub_right (h.sent.held _ (h.fronts _ _ item hitem).1 w hw cap hcap) _

/-- **A writer of snapshots is activated.** -/
theorem WriteInv.snapStep (h : WriteInv cfg target is s o)
    {a : WriterActivation (S × K) (SerializedSnapshot S K D)}
    (hallowed : cfg.Allowed target s (.snap w a)) (hs : cfg.step s (.snap w a) = some (s', o')) :
    WriteInv cfg target (is ++ [.snap w a]) s' (o ++ o') := by
  obtain ⟨hw, hitems⟩ := hallowed
  obtain ⟨⟨t, calls⟩, hact, hs⟩ := Option.bind_eq_some_iff.1 hs
  cases hs
  obtain ⟨hsnap, hadmits, -, hle⟩ :=
    onWorkers_activate (.snap w a) (.snap w) h.snap (fun v => rfl) (fun v c => rfl) hact
  have hsnaps : ∀ v e, ∀ item ∈ itemsAt ((is ++ [WriteStep.snap w a]).filterMap
      (WriteStep.snap? v)) e, item.2.2.2.snapEpoch = e := by
    intro v e item hitem
    rcases mem_itemsAt_concat hitem with hold | ⟨a', ha, m, hm, rfl, hin⟩
    · exact h.snaps v e item hold
    · obtain ⟨-, ha⟩ := Option.ite_none_right_eq_some.1 ha
      rw [← Option.some.inj ha] at hm
      exact (exists_serSnap.1 (hitems m hm item hin)).2
  refine ⟨onWorkers_frame h.ex (fun _ => rfl) fun _ => List.forall_mem_map.2 fun _ _ => rfl, hsnap,
    onWorkers_frame h.front (fun _ => rfl) fun _ => List.forall_mem_map.2 fun _ _ => rfl,
    ?_, hsnaps, fun v e item hitem => ?_, fun x hx => ?_, ?_, ?_⟩
  · have hsame : ∀ v, (is ++ [WriteStep.snap w a]).filterMap (WriteStep.ex? v) =
        is.filterMap (WriteStep.ex? v) := fun v => filterMap_concat_none rfl
    simp only [hsame]
    exact h.arrived
  · rw [filterMap_concat_none rfl] at hitem
    exact h.fronts v e item hitem
  · rw [filterMap_concat_none rfl]
    exact h.delivered x hx
  · exact h.sent.mono rfl rfl hle ex_mem_durable_append
  · rw [durable_append]
    refine List.pairwise_append.2 ⟨h.ordered, ?_, fun x hx y hy => ?_⟩
    · refine List.Pairwise.imp_of_mem (fun {x y} hx hy _ => ?_)
        (List.pairwise_of_forall fun _ _ => trivial)
      obtain ⟨_, -, _, -, rfl⟩ := snap_mem_durable hx
      obtain ⟨_, -, _, -, rfl⟩ := snap_mem_durable hy
      exact trivial
    · obtain ⟨call, hcall, r, hr, rfl⟩ := snap_mem_durable hy
      cases x with
      | ex => exact trivial
      | snap stepId stateKey since serChange => exact trivial
      | front i n =>
        -- the writer still holds an epoch that is not before the frontier
        obtain ⟨cap, hcap, hle⟩ := hadmits call hcall
        obtain ⟨item, hitem, rfl⟩ := hsnap.arrived (w := w)
          (List.mem_filterMap.2 ⟨_, List.mem_append_right _ (List.mem_map.2 ⟨call, hcall, rfl⟩),
            if_pos rfl⟩) hr
        show n ≤ item.2.2.2.snapEpoch - _
        rw [hsnaps w call.1 item hitem]
        exact Nat.le_trans (h.front_le_held hw hx hcap) (Nat.sub_le_sub_right hle _)

/-- **A writer of frontiers is activated.** -/
theorem WriteInv.frontStep (h : WriteInv cfg target is s o)
    {a : WriterActivation (ℕ × ℕ) FrontierMeta} (hallowed : cfg.Allowed target s (.front w a))
    (hs : cfg.step s (.front w a) = some (s', o')) :
    WriteInv cfg target (is ++ [.front w a]) s' (o ++ o') := by
  obtain ⟨hw, hitems⟩ := hallowed
  obtain ⟨⟨t, calls⟩, hact, hs⟩ := Option.bind_eq_some_iff.1 hs
  cases hs
  obtain ⟨hfront, hadmits, hordered, -⟩ :=
    onWorkers_activate (.front w a) (.front w) h.front (fun v => rfl) (fun v c => rfl) hact
  have hfronts : ∀ v e, ∀ item ∈ itemsAt ((is ++ [WriteStep.front w a]).filterMap
      (WriteStep.front? v)) e, (e, item.2.2.2) ∈ s.sent ∧ target item.2.2.2.workerIndex = v := by
    intro v e item hitem
    rcases mem_itemsAt_concat hitem with hold | ⟨a', ha, m, hm, rfl, hin⟩
    · exact h.fronts v e item hold
    · obtain ⟨hv, ha⟩ := Option.ite_none_right_eq_some.1 ha
      rw [← Option.some.inj ha] at hm
      rw [← hv]
      exact hitems m hm item hin
  -- a row that is written now has been sent, and is of this writer
  have hrow : ∀ call ∈ calls, ∀ r ∈ batchOf call,
      (call.1, r) ∈ s.sent ∧ target r.workerIndex = w := by
    intro call hcall r hr
    obtain ⟨item, hitem, rfl⟩ := hfront.arrived (w := w) (mem_frontCalls.2
      (List.mem_append_right _ (List.mem_map.2 ⟨call, hcall, rfl⟩))) hr
    exact hfronts w call.1 item hitem
  refine ⟨onWorkers_frame h.ex (fun _ => rfl) fun _ => List.forall_mem_map.2 fun _ _ => rfl,
    onWorkers_frame h.snap (fun _ => rfl) fun _ => List.forall_mem_map.2 fun _ _ => rfl, hfront,
    ?_, fun v e item hitem => ?_, hfronts, fun x hx => ?_, ?_, ?_⟩
  · have hsame : ∀ v, (is ++ [WriteStep.front w a]).filterMap (WriteStep.ex? v) =
        is.filterMap (WriteStep.ex? v) := fun v => filterMap_concat_none rfl
    simp only [hsame]
    exact h.arrived
  · rw [filterMap_concat_none rfl] at hitem
    exact h.snaps v e item hitem
  · rcases List.mem_append.1 hx with hx | hx
    · obtain ⟨htarget, item, hitem, hval⟩ := h.delivered x hx
      refine ⟨htarget, item, ?_, hval⟩
      rw [List.filterMap_append, itemsAt_append]
      exact List.mem_append_left _ hitem
    · obtain ⟨m, hm, hx⟩ := List.mem_flatMap.1 hx
      obtain ⟨item, hin, rfl⟩ := List.mem_map.1 hx
      refine ⟨by rw [(hitems m hm item hin).2]; exact hw, item, ?_, rfl⟩
      rw [(hitems m hm item hin).2, List.filterMap_append, itemsAt_append]
      refine List.mem_append_right _ ?_
      have hone : [(WriteStep.front w a : WriteStep S K D)].filterMap (WriteStep.front? w) = [a] :=
        List.filterMap_cons_some (if_pos rfl)
      rw [hone, itemsAt_singleton]
      exact List.mem_flatten.2 ⟨m.2, Keyed.mem_valuesOf.2 hm, hin⟩
  · exact h.sent.mono rfl rfl (fun v t ht => ⟨t, ht, Nat.le_refl t⟩) ex_mem_durable_append
  · have hsub : ∀ {x y : ℕ × FrontierMeta}, x ∈ s.sent → y ∈ s.sent → x.1 ≤ y.1 →
        x.2.workerIndex = y.2.workerIndex → x.2.workerFrontier - cfg.resumeFrom.resumeEpoch ≤
          y.2.workerFrontier - cfg.resumeFrom.resumeEpoch :=
      fun hx hy hle hsame => Nat.sub_le_sub_right (h.sent.chain _ hx _ hy hsame hle) _
    rw [durable_append]
    refine List.pairwise_append.2 ⟨h.ordered, ?_, fun x hx y hy => ?_⟩
    · have hnew : durable cfg.resumeFrom.resumeEpoch (calls.map (WriteEvent.front w)) =
          calls.flatMap fun call => (batchOf call).map fun r => (.front r.workerIndex
            (r.workerFrontier - cfg.resumeFrom.resumeEpoch) : DurableWrite S K D) :=
        List.flatMap_map ..
      rw [hnew, List.pairwise_flatMap]
      refine ⟨fun call hcall => List.pairwise_map.2 ?_, ?_⟩
      · refine List.Pairwise.imp_of_mem (fun {r r'} hr hr' _ => ?_)
          (List.pairwise_of_forall fun _ _ => trivial)
        exact hsub (hrow call hcall r hr).1 (hrow call hcall r' hr').1 (Nat.le_refl _)
      · refine List.Pairwise.imp_of_mem (fun {call call'} hcall hcall' hle x hx y hy => ?_)
          (List.pairwise_map.1 hordered)
        obtain ⟨r, hr, rfl⟩ := List.mem_map.1 hx
        obtain ⟨r', hr', rfl⟩ := List.mem_map.1 hy
        exact hsub (hrow call hcall r hr).1 (hrow call' hcall' r' hr').1 hle
    · obtain ⟨event, hevent, hy⟩ := List.mem_flatMap.1 hy
      obtain ⟨call, hcall, rfl⟩ := List.mem_map.1 hevent
      obtain ⟨r, hr, rfl⟩ := List.mem_map.1 hy
      cases x with
      | ex => exact trivial
      | snap stepId stateKey since serChange => exact trivial
      | front i n =>
        intro hsame
        obtain ⟨w', call', hin, r', hr', rfl, rfl⟩ := front_mem_durable hx
        obtain ⟨item, hitem, rfl⟩ := h.front.arrived (mem_frontCalls.2 hin) hr'
        obtain ⟨hsent', htarget'⟩ := h.fronts _ _ item hitem
        obtain ⟨hsent, htarget⟩ := hrow call hcall r hr
        -- frontiers of one worker are written by one writer
        obtain rfl : w' = w := by rw [← htarget', ← htarget, hsame]
        obtain ⟨cap, hcap, hle⟩ := hadmits call hcall
        have hbefore := h.front.before w' call' (mem_frontCalls.2 hin) cap hcap
        exact hsub hsent' hsent (Nat.le_trans hbefore hle) hsame

/-- A frontier is only sent when the row of the execution is written. -/
theorem WriteInv.executed (h : WriteInv cfg target is s o) {frontier : Frontier} {cap : ℕ}
    (hclosed : frontier.IsClosed cap) (hcap : cfg.resumeFrom.resumeEpoch ≤ cap)
    (hex : ∀ v < cfg.workerCount, ∀ cap ∈ held (s.ex v), frontier.Admits cap)
    (hflight : s.exArrived = false → frontier.Admits cfg.resumeFrom.resumeEpoch) :
    .ex ∈ durable cfg.resumeFrom.resumeEpoch o := by
  rw [ex_mem_durable]
  rcases h.arrived with ⟨hnot, -⟩ | ⟨-, w₀, hw₀, item, hitem⟩
  · obtain ⟨t, ht, hle⟩ := hflight hnot
    exact absurd (Nat.le_trans hle hcap) (Nat.not_le_of_lt (hclosed t ht))
  · have hwritten := h.ex.written (w := w₀) (e := cfg.resumeFrom.resumeEpoch) item.2.1
      fun c hc => by
        obtain ⟨t, ht, hle⟩ := hex w₀ hw₀ c hc
        exact Nat.lt_of_le_of_lt hcap (Nat.lt_of_lt_of_le (hclosed t ht) hle)
    rw [hitem w₀, if_pos ⟨rfl, rfl⟩] at hwritten
    rw [(exOnce h.ex hitem).1, hwritten]
    simp [valuesFor]

/-- A frontier is sent. -/
theorem Sent.emit {executed : Prop} (h : Sent cfg s executed) (hw : w < cfg.workerCount)
    {frontier : Frontier} {cap : ℕ} (hf : s.frontier w = some cap)
    (hclosed : frontier.IsClosed cap)
    (hsnap : ∀ v < cfg.workerCount, ∀ cap ∈ EpochOp.held (s.snap v), frontier.Admits cap)
    (hexecuted : executed) :
    Sent cfg { s with
      frontier := Function.update s.frontier w frontier
      sent := s.sent ++ [(cap, ⟨cfg.resumeFrom.exNum, w, frontier.getD (cap + 1)⟩)] } executed := by
  have hlow := h.low w cap (by rw [hf]; rfl)
  have hnew : cap < frontier.getD (cap + 1) := by
    cases frontier with
    | none => exact Nat.lt_succ_self cap
    | some t => exact hclosed t rfl
  -- what this worker has sent before is of an earlier time
  have hearlier : ∀ x ∈ s.sent, x.2.workerIndex = w → x.2.workerFrontier ≤ cap ∧ x.1 < cap := by
    intro x hx hsame
    have hle := h.reached x hx cap (by rw [hsame, hf]; rfl)
    exact ⟨hle, Nat.lt_of_lt_of_le (h.past x hx) hle⟩
  refine ⟨fun v c hc => ?_, fun x hx => ?_, fun x hx => ?_, fun x hx c hc => ?_,
    fun x hx y hy hsame hle => ?_, fun x hx v hv c hc => ?_, fun v e he hreach => ?_,
    fun _ => hexecuted⟩
  · by_cases hv : v = w
    · subst hv
      replace hc : c ∈ Function.update s.frontier v frontier v := hc
      rw [Function.update_self] at hc
      exact Nat.le_trans hlow (Nat.le_of_lt (hclosed c hc))
    · replace hc : c ∈ Function.update s.frontier w frontier v := hc
      rw [Function.update_of_ne hv] at hc
      exact h.low v c hc
  · rcases List.mem_append.1 hx with hx | hx
    · exact h.worker x hx
    · rw [List.mem_singleton.1 hx]
      exact hw
  · rcases List.mem_append.1 hx with hx | hx
    · exact h.past x hx
    · rw [List.mem_singleton.1 hx]
      exact hnew
  · replace hc : c ∈ Function.update s.frontier w frontier x.2.workerIndex := hc
    rcases List.mem_append.1 hx with hx | hx
    · by_cases hv : x.2.workerIndex = w
      · rw [hv, Function.update_self] at hc
        exact Nat.le_trans (hearlier x hx hv).1 (Nat.le_of_lt (hclosed c hc))
      · rw [Function.update_of_ne hv] at hc
        exact h.reached x hx c hc
    · rw [List.mem_singleton.1 hx] at hc ⊢
      rw [Function.update_self] at hc
      rw [Option.mem_def.1 hc]
      exact Nat.le_refl c
  · rcases List.mem_append.1 hx with hx | hx
    · rcases List.mem_append.1 hy with hy | hy
      · exact h.chain x hx y hy hsame hle
      · rw [List.mem_singleton.1 hy] at hsame ⊢
        exact Nat.le_trans (hearlier x hx hsame).1 (Nat.le_of_lt hnew)
    · rcases List.mem_append.1 hy with hy | hy
      · rw [List.mem_singleton.1 hx] at hsame hle
        exact absurd (hearlier y hy hsame.symm).2 (Nat.not_lt_of_le hle)
      · rw [List.mem_singleton.1 hx, List.mem_singleton.1 hy]
  · rcases List.mem_append.1 hx with hx | hx
    · exact h.held x hx v hv c hc
    · obtain ⟨t, ht, hle⟩ := hsnap v hv c hc
      rw [List.mem_singleton.1 hx, Option.mem_def.1 ht]
      exact hle
  · -- the new frontier is sent for the epochs from the capability on
    have hold : ((∃ c ∈ s.frontier v, e < c) ∨
        ∃ x ∈ s.sent, x.2.workerIndex = v ∧ e < x.2.workerFrontier) ∨
          v = w ∧ cap ≤ e ∧ e < frontier.getD (cap + 1) := by
      by_cases hv : v = w
      · subst hv
        by_cases hle : cap ≤ e
        · refine .inr ⟨rfl, hle, ?_⟩
          rcases hreach with ⟨c, hc, hlt⟩ | ⟨x, hx, hsame, hlt⟩
          · replace hc : c ∈ Function.update s.frontier v frontier v := hc
            rw [Function.update_self] at hc
            rw [Option.mem_def.1 hc]
            exact hlt
          · rcases List.mem_append.1 hx with hx | hx
            · exact absurd (hearlier x hx hsame).1 (by omega)
            · rw [List.mem_singleton.1 hx] at hlt
              exact hlt
        · exact .inl (.inl ⟨cap, hf, Nat.lt_of_not_le hle⟩)
      · refine .inl (hreach.imp (fun ⟨c, hc, hlt⟩ => ⟨c, ?_, hlt⟩) fun ⟨x, hx, hsame, hlt⟩ => ?_)
        · replace hc : c ∈ Function.update s.frontier w frontier v := hc
          rwa [Function.update_of_ne hv] at hc
        · refine ⟨x, (List.mem_append.1 hx).resolve_right fun hnew => hv ?_, hsame, hlt⟩
          rw [← hsame, List.mem_singleton.1 hnew]
    rcases hold with hold | ⟨rfl, hle, hlt⟩
    · obtain ⟨x, hx, hcover⟩ := h.covered v e he hold
      exact ⟨x, List.mem_append_left _ hx, hcover⟩
    · exact ⟨_, List.mem_append_right _ (List.mem_singleton.2 rfl), rfl, hle, hlt⟩

/-- **`frontier` is activated.** -/
theorem WriteInv.frontierStep (h : WriteInv cfg target is s o) {frontier : Frontier}
    (hallowed : cfg.Allowed target s (.frontier w frontier))
    (hs : cfg.step s (.frontier w frontier) = some (s', o')) :
    WriteInv cfg target (is ++ [.frontier w frontier]) s' (o ++ o') := by
  obtain ⟨hw, hex, hsnap, hflight⟩ := hallowed
  cases hs
  have hsent : Sent cfg { s with
      frontier := Function.update s.frontier w
        (frontierOp cfg.resumeFrom.exNum w (s.frontier w) frontier).1
      sent := s.sent ++ (frontierOp cfg.resumeFrom.exNum w (s.frontier w) frontier).2 }
      (.ex ∈ durable cfg.resumeFrom.resumeEpoch o) := by
    cases hf : s.frontier w with
    | none =>
      have hsame : Function.update s.frontier w none = s.frontier := by
        rw [← hf]
        exact Function.update_eq_self w s.frontier
      simp only [frontierOp, hsame, List.append_nil]
      exact h.sent
    | some cap =>
      by_cases hclosed : frontier.IsClosed cap
      · simp only [frontierOp, if_pos hclosed]
        exact h.sent.emit hw hf hclosed hsnap
          (h.executed hclosed (h.sent.low w cap (by rw [hf]; rfl)) hex hflight)
      · have hsame : Function.update s.frontier w (some cap) = s.frontier := by
          rw [← hf]
          exact Function.update_eq_self w s.frontier
        simp only [frontierOp, if_neg hclosed, hsame, List.append_nil]
        exact h.sent
  refine ⟨onWorkers_frame h.ex (fun _ => rfl) fun _ => List.forall_mem_nil _,
    onWorkers_frame h.snap (fun _ => rfl) fun _ => List.forall_mem_nil _,
    onWorkers_frame h.front (fun _ => rfl) fun _ => List.forall_mem_nil _, ?_,
    fun v e item hitem => ?_, fun v e item hitem => ?_, fun x hx => ?_, ?_, ?_⟩
  · have hsame : ∀ v, (is ++ [WriteStep.frontier w frontier]).filterMap (WriteStep.ex? v) =
        is.filterMap (WriteStep.ex? v) := fun v => filterMap_concat_none rfl
    simp only [hsame]
    exact h.arrived
  · rw [filterMap_concat_none rfl] at hitem
    exact h.snaps v e item hitem
  · rw [filterMap_concat_none rfl] at hitem
    obtain ⟨hin, htarget⟩ := h.fronts v e item hitem
    exact ⟨List.mem_append_left _ hin, htarget⟩
  · rw [filterMap_concat_none rfl]
    exact h.delivered x hx
  · rw [List.append_nil]
    exact hsent
  · rw [List.append_nil]
    exact h.ordered

/-- **A committer is activated**, which writes no row. -/
theorem WriteInv.commitStep (h : WriteInv cfg target is s o) {a : EpochActivation Unit (ℕ × ℕ)}
    (hs : cfg.step s (.commit w a) = some (s', o')) :
    WriteInv cfg target (is ++ [.commit w a]) s' (o ++ o') := by
  obtain ⟨⟨t, calls⟩, -, hs⟩ := Option.bind_eq_some_iff.1 hs
  cases hs
  have hsame : durable cfg.resumeFrom.resumeEpoch (o ++ calls.map (WriteEvent.commit w)) =
      durable cfg.resumeFrom.resumeEpoch o := by
    rw [durable_append, durable_commit, List.append_nil]
  refine ⟨onWorkers_frame h.ex (fun _ => rfl) fun _ => List.forall_mem_map.2 fun _ _ => rfl,
    onWorkers_frame h.snap (fun _ => rfl) fun _ => List.forall_mem_map.2 fun _ _ => rfl,
    onWorkers_frame h.front (fun _ => rfl) fun _ => List.forall_mem_map.2 fun _ _ => rfl, ?_,
    fun v e item hitem => ?_, fun v e item hitem => ?_, fun x hx => ?_, ?_, ?_⟩
  · have hsame : ∀ v, (is ++ [WriteStep.commit w a]).filterMap (WriteStep.ex? v) =
        is.filterMap (WriteStep.ex? v) := fun v => filterMap_concat_none rfl
    simp only [hsame]
    exact h.arrived
  · rw [filterMap_concat_none rfl] at hitem
    exact h.snaps v e item hitem
  · rw [filterMap_concat_none rfl] at hitem
    exact h.fronts v e item hitem
  · rw [filterMap_concat_none rfl]
    exact h.delivered x hx
  · rw [hsame]
    exact h.sent.mono rfl rfl (fun v t ht => ⟨t, ht, Nat.le_refl t⟩) id
  · rw [hsame]
    exact h.ordered

/-! ### Runs -/

/-- **One step.** -/
theorem WriteInv.step (h : WriteInv cfg target is s o) {i : WriteStep S K D}
    (hallowed : cfg.Allowed target s i) (hs : cfg.step s i = some (s', o')) :
    WriteInv cfg target (is ++ [i]) s' (o ++ o') := by
  cases i with
  | ex w a => exact h.exStep hallowed hs
  | snap w a => exact h.snapStep hallowed hs
  | frontier w frontier => exact h.frontierStep hallowed hs
  | front w a => exact h.frontStep hallowed hs
  | commit w a => exact h.commitStep hs

theorem WriteInv.of_run (hallowed : Runs.Along cfg.step (cfg.Allowed target) cfg.init is)
    (hr : Runs.run cfg.step cfg.init is = some (s, o)) : WriteInv cfg target is s o :=
  Runs.run_history (fun _ _ _ _ _ _ hinv hstep hs => hinv.step hstep hs) .init hallowed hr

/-- A frontier that is written is one of the cluster's, and the execution has been written before
it. -/
theorem WriteInv.workers (h : WriteInv cfg target is s o) {i n : ℕ}
    (hfront : .front i n ∈ durable cfg.resumeFrom.resumeEpoch o) :
    i < cfg.workerCount ∧ .ex ∈ durable cfg.resumeFrom.resumeEpoch o := by
  obtain ⟨w, call, hin, r, hr, rfl, -⟩ := front_mem_durable hfront
  obtain ⟨item, hitem, rfl⟩ := h.front.arrived (mem_frontCalls.2 hin) hr
  have hsent := (h.fronts _ _ item hitem).1
  exact ⟨h.sent.worker _ hsent, h.sent.executed (List.ne_nil_of_mem hsent)⟩

/-- The rows that have been written at a crash are those of an execution. -/
theorem WriteInv.execution (h : WriteInv cfg target is s o) {writes : List (DurableWrite S K D)}
    (hcrash : writes <+: durable cfg.resumeFrom.resumeEpoch o) :
    ∃ exec : Execution S K D, exec.workerCount = cfg.workerCount ∧ exec.writes = writes := by
  obtain ⟨rest, hsplit⟩ := hcrash
  refine ⟨⟨cfg.workerCount, writes, ?_, fun i n hfront => ?_⟩, rfl, rfl⟩
  · exact h.ordered.sublist (hsplit ▸ List.sublist_append_left writes rest)
  · have hall : .front i n ∈ durable cfg.resumeFrom.resumeEpoch o :=
      hsplit ▸ List.mem_append_left rest hfront
    obtain ⟨hi, hex⟩ := h.workers hall
    refine ⟨hi, ?_⟩
    -- the execution is not written after the frontier
    rw [← hsplit] at hex
    refine (List.mem_append.1 hex).resolve_right fun hrest => ?_
    have hordered := h.ordered
    rw [← hsplit] at hordered
    exact (List.pairwise_append.1 hordered).2.2 _ hfront _ hrest

/-- One worker with one recovery partition. -/
def oneWorker : RecoveryWrite ℕ ℕ ℕ Unit where
  resumeFrom := ⟨0, 1⟩
  workerCount := 1
  localParts _ := [0]
  exWriters := ⟨fun _ => (), fun _ _ => ()⟩
  snapWriters := ⟨fun _ => (), fun _ _ => ()⟩
  frontWriters := ⟨fun _ => (), fun _ _ => ()⟩
  committers := ⟨fun _ => (), fun _ _ => ()⟩
  delay := 0

/-- The execution and a snapshot arrive, epoch 1 ends, and the frontier is sent and written. -/
def firstEpoch : List (WriteStep ℕ ℕ ℕ) :=
  [.snap 0 ⟨[(1, [(0, 0, (7, 8), ⟨7, 8, 1, some 5⟩)])], [(0, [(0, 0)])], some 1, none⟩,
    .ex 0 ⟨[(1, [(0, 0, 0, ⟨0, 1, 1⟩)])], [(0, [(0, 0)])], some 1, none⟩,
    .ex 0 ⟨[], [], some 2, none⟩,
    .frontier 0 (some 1),
    .snap 0 ⟨[], [], some 2, none⟩,
    .frontier 0 (some 2),
    .snap 0 ⟨[(2, [(0, 0, (7, 8), ⟨7, 8, 2, none⟩)])], [], some 2, none⟩,
    .front 0 ⟨[(1, [(0, 0, (0, 0), ⟨0, 0, 2⟩)])], [(0, [(0, 0)])], some 2, none⟩]

end

end Recovery
end Bytewax
