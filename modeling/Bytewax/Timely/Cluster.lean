import Bytewax.Timely.Announced
import Bytewax.Timely.PartdWrite

/-!
# Bytewax.Timely.Cluster — `partd_write` on all workers

The operators behind `partd_write`, on every worker and with the channels between them: each item is
partitioned and routed where it comes in, and written where it is routed to.  Only the order in
which the messages of different workers arrive, and the batches and frontiers they arrive with, are
left open.
-/

namespace Bytewax

open Std (TreeMap TreeSet)

/-- The activations of the operators of `partd_write`: of `assign_primaries` on worker 0, and of the
others on each worker. -/
structure WriteActivations (P K V : Type) where
  assigned : List (EpochActivation (P × Nat) Empty)
  partitioned : Nat → List (EpochActivation (K × V) P)
  routed : Nat → List (EpochActivation (P × K × V) (P × Nat))
  written : Nat → List (EpochActivation (Nat × P × K × V) (P × Nat))

namespace EpochOp

variable {P K V W : Type} [LinearOrder P]

/-- **The channels**: what arrives at each operator is what the operators before it put out. -/
structure Channels (std : Unstable P Nat) (assign : K → Nat)
    (localParts : Nat → List P) (workers : Nat) (acts : WriteActivations P K V) : Prop where
  announced : Announced localParts workers acts.assigned
  known : ∀ w < workers, (updatesAt (acts.partitioned w) 0).Perm
    ((announcements localParts workers).map Prod.fst)
  knownOnce : ∀ w < workers, ∀ e, 0 < e → updatesAt (acts.partitioned w) e = []
  /-- The assignments are broadcast. -/
  routes : ∀ w < workers, ∀ e, updatesAt (acts.routed w) e =
    Keyed.valuesOf e ((assignPrimaries std).outputs acts.assigned)
  primaries : ∀ w < workers, ∀ e, updatesAt (acts.written w) e =
    Keyed.valuesOf e ((assignPrimaries std).outputs acts.assigned)
  partd : ∀ w < workers, ∀ e, itemsAt (acts.routed w) e =
    Keyed.valuesOf e ((partition assign).outputs (acts.partitioned w))
  /-- `routed_exchange`: each worker gets the items that are labelled with it. -/
  exchanged : ∀ t < workers, ∀ e, (itemsAt (acts.written t) e).Perm
    ((List.range workers).flatMap fun w =>
      (Keyed.valuesOf e (route.outputs (acts.routed w))).filter fun item => item.1 = t)
  delivered : ∀ w < workers, Delivered (acts.partitioned w) ∧ Delivered (acts.routed w) ∧
    Delivered (acts.written w)

/-- The values of the items whose key is of a partition. -/
def valuesIn (assign : K → Nat) (parts : List P) (p : P) (items : List (K × V)) : List V :=
  items.flatMap fun item => if partOf assign parts item.1 = some p then [item.2] else []

/-! ### Arrivals -/

variable {std : Unstable P Nat} {assign : K → Nat} {localParts : Nat → List P}
  {workers : Nat} {acts : WriteActivations P K V} {e : Nat}

/-- The partition of a key does not depend on the order of the announcements. -/
theorem partOf_perm {parts parts' : List P} (h : parts.Perm parts') (key : K) :
    partOf assign parts key = partOf assign parts' key := by
  have heq : (TreeSet.ofList parts).Equiv (TreeSet.ofList parts') := by
    refine TreeSet.Equiv.of_forall_contains_eq fun p => ?_
    rw [Bool.eq_iff_iff, TreeSet.contains_iff_mem, TreeSet.contains_iff_mem, TreeSet.mem_ofList,
      TreeSet.mem_ofList, List.contains_iff_mem, List.contains_iff_mem, h.mem_iff]
  rw [partOf, partOf, heq.toList_eq]

/-! ### Items -/

/-- The labels that an item gets on its way to the worker that writes it. -/
def labelled (assign : K → Nat) (parts : List P) (routes : List (P × Nat)) (item : K × V) :
    Option (Nat × P × K × V) :=
  ((partOf assign parts item.1).map fun part => (part, item)).bind fun partd =>
    (lastAssigned routes partd.1).map fun worker => (worker, partd)

/-- **On the worker where items come in**, neither `partition` nor `route` panics, and each item is
labelled with its partition and the primary of it. -/
theorem Channels.labels (h : Channels std assign localParts workers acts) {w : Nat}
    (hw : w < workers) (hparts : allParts localParts workers ≠ [])
    (hitems : itemsAt (acts.partitioned w) 0 = []) {routes : List (P × Nat)}
    (hsettled : Settled localParts workers routes)
    (hroutes : ∀ e, 0 < e → updatesBefore (acts.routed w) e = routes) :
    (Runs.run (partition assign).activate (partition assign).start (acts.partitioned w)).isSome ∧
      (Runs.run route.activate route.start (acts.routed w)).isSome ∧
      ∀ e, (itemsAt (acts.partitioned w) e).mapM
        (labelled assign (allParts localParts workers) routes) =
          some (Keyed.valuesOf e (route.outputs (acts.routed w))) := by
  obtain ⟨hd, hd', -⟩ := h.delivered w hw
  have hknown : ∀ e, 0 < e → (updatesBefore (acts.partitioned w) e).Perm
      (allParts localParts workers) := by
    intro e he
    rw [updatesBefore, flatMap_range_once (h.knownOnce w hw) he]
    exact h.known w hw
  have hpos : ∀ e, HasItems (acts.partitioned w) e → 0 < e := by
    intro e hhas
    rcases Nat.eq_zero_or_pos e with rfl | he
    · exact absurd hitems (hd.itemsAt_ne_nil hhas)
    · exact he
  obtain ⟨s, o, hr, ho⟩ := partition_run assign hd.schedule fun e hhas hnil => by
    have hperm := hknown e (hpos e hhas)
    rw [hnil] at hperm
    exact hparts hperm.nil_eq.symm
  have hpartd : ∀ e, ((itemsAt (acts.partitioned w) e).mapM fun item =>
      (partOf assign (allParts localParts workers) item.1).map fun part => (part, item)) =
        some (itemsAt (acts.routed w) e) := by
    intro e
    rw [h.partd w hw e, outputs_of_run hr]
    have hsent := ho.ended hd.ended (fun e hnil => by rw [hnil]; rfl) e
    rcases Nat.eq_zero_or_pos e with rfl | he
    · rw [hitems] at hsent ⊢
      exact hsent
    · rw [← hsent]
      exact congrArg (fun f => (itemsAt (acts.partitioned w) e).mapM f)
        (funext fun item => by rw [partOf_perm (hknown e he)])
  have hnone : itemsAt (acts.routed w) 0 = [] := by
    have hzero := hpartd 0
    rw [hitems] at hzero
    exact (Option.some.inj hzero).symm
  have hpos' : ∀ e, HasItems (acts.routed w) e → 0 < e := by
    intro e hhas
    rcases Nat.eq_zero_or_pos e with rfl | he
    · exact absurd hnone (hd'.itemsAt_ne_nil hhas)
    · exact he
  have hassigned : ∀ e, ∀ item ∈ itemsAt (acts.routed w) e,
      (lastAssigned routes item.1).isSome := by
    intro e item hin
    obtain ⟨x, -, hx⟩ := (MapM.mem_iff (hpartd e)).mp hin
    obtain ⟨part, hpart, rfl⟩ := Option.map_eq_some_iff.mp hx
    obtain ⟨part', hmem, hpart'⟩ := partOf_isSome assign hparts x.1
    rw [hpart] at hpart'
    obtain rfl := Option.some.inj hpart'
    exact hsettled.all part hmem
  obtain ⟨s', o', hr', ho'⟩ := route_run hd'.schedule fun e hhas => by
    rw [hroutes e (hpos' e hhas)]
    have hall := fun item hin => lastAssigned_isSome.mp (hassigned e item hin)
    refine ⟨?_, hall⟩
    obtain ⟨item, hin⟩ := List.exists_mem_of_ne_nil _ (hd'.itemsAt_ne_nil hhas)
    obtain ⟨worker, hworker⟩ := hall item hin
    exact List.ne_nil_of_mem hworker
  rw [outputs_of_run hr', hr, hr']
  refine ⟨rfl, rfl, fun e => MapM.bind (hpartd e) ?_⟩
  have hsent := ho'.ended hd'.ended (fun e hnil => by rw [hnil]; rfl) e
  rcases Nat.eq_zero_or_pos e with rfl | he
  · rw [hnone] at hsent ⊢
    exact hsent
  · rw [hroutes e he] at hsent
    exact hsent

/-- What is labelled with a worker and a partition is what that worker is the primary of. -/
theorem valuesFor_labelled {parts : List P} {routes : List (P × Nat)} {items : List (K × V)}
    {out : List (Nat × P × K × V)} (h : items.mapM (labelled assign parts routes) = some out)
    (t : Nat) (p : P) : valuesFor p (out.filter fun item => item.1 = t) =
      if lastAssigned routes p = some t then valuesIn assign parts p items else [] := by
  have hfilter : valuesFor p (out.filter fun item => item.1 = t) = out.flatMap fun item =>
      if item.1 = t ∧ item.2.1 = p then [item.2.2.2] else [] := by
    clear h
    induction out with
    | nil => rfl
    | cons item out ih =>
      rw [List.filter_cons, List.flatMap_cons, ← ih]
      by_cases ht : item.1 = t
      · simp [valuesFor, ht]
      · simp [valuesFor, ht]
  rw [hfilter, MapM.flatMap_eq h, valuesIn]
  clear h hfilter
  induction items with
  | nil => simp
  | cons item items ih =>
    rw [List.flatMap_cons, List.flatMap_cons, ih, labelled]
    cases hpart : partOf assign parts item.1 with
    | none => simp
    | some part =>
      by_cases hp : part = p
      · subst hp
        cases hlast : lastAssigned routes part with
        | none => simp [hlast]
        | some worker =>
          by_cases ht : worker = t
          · simp [hlast, ht]
          · simp [hlast, ht]
      · cases hlast : lastAssigned routes part with
        | none => simp [hlast, hp]
        | some worker => simp [hlast, hp]

/-- **On the worker that writes**, `partd_write` does not panic, and what it writes to a partition
that the worker is primary for is what has come in for it on all workers. -/
theorem Channels.writes (h : Channels std assign localParts workers acts) (writers : Writers P V W)
    {t : Nat} (ht : t < workers) (hitems : ∀ w < workers, itemsAt (acts.partitioned w) 0 = [])
    (hsettled : Settled localParts workers (assignments std acts.assigned))
    (hprimaries : ∀ e, 0 < e → updatesBefore (acts.written t) e = assignments std acts.assigned)
    (hlabels : ∀ w < workers, ∀ e, (itemsAt (acts.partitioned w) e).mapM
      (labelled assign (allParts localParts workers) (assignments std acts.assigned)) =
        some (Keyed.valuesOf e (route.outputs (acts.routed w)))) :
    ∃ s o, Runs.run (partdWrite (K := K) writers (localParts t) t).activate
        (partdWrite (K := K) writers (localParts t) t).start (acts.written t) = some (s, o) ∧
      (o.Pairwise fun call later => call.1 < later.1 ∨ call.1 = later.1 ∧ call.2 ≠ .clock) ∧
      ∀ e p, (writtenTo e p o).Perm (if lastAssigned (assignments std acts.assigned) p = some t then
        (List.range workers).flatMap fun w =>
          valuesIn assign (allParts localParts workers) p (itemsAt (acts.partitioned w) e)
        else []) := by
  obtain ⟨-, -, hd⟩ := h.delivered t ht
  have hchanging : ∀ e, Changing (updatesBefore (acts.written t) e) := by
    intro e
    rcases Nat.eq_zero_or_pos e with rfl | he
    · exact fun pre route post heq => by simp [updatesBefore] at heq
    · rw [hprimaries e he]
      exact hsettled.changing
  have hwritten : ∀ e, ∀ item ∈ itemsAt (acts.written t) e, 0 < e ∧
      lastAssigned (assignments std acts.assigned) item.2.1 = some t := by
    intro e item hin
    obtain ⟨w, hw, hin⟩ := List.mem_flatMap.mp ((h.exchanged t ht e).mem_iff.mp hin)
    obtain ⟨hin, hworker⟩ := List.mem_filter.mp hin
    obtain ⟨x, hx, hlabel⟩ := (MapM.mem_iff (hlabels w (List.mem_range.mp hw) e)).mp hin
    obtain ⟨partd, -, hlabel⟩ := Option.bind_eq_some_iff.mp hlabel
    obtain ⟨worker, hprimary, rfl⟩ := Option.map_eq_some_iff.mp hlabel
    refine ⟨?_, by rw [hprimary]; exact congrArg some (of_decide_eq_true hworker)⟩
    rcases Nat.eq_zero_or_pos e with rfl | he
    · rw [hitems w (List.mem_range.mp hw)] at hx
      cases hx
    · exact he
  obtain ⟨s, o, hr, ho⟩ := partdWrite_run writers (localParts t) t hd.schedule hchanging
    fun e item hin => by
      obtain ⟨he, hlast⟩ := hwritten e item hin
      rw [hprimaries e he]
      exact ⟨(hsettled.valid _ t hlast).2, hlast⟩
  refine ⟨s, o, hr, ho.ordered, fun e p => ?_⟩
  have hvalues : (valuesFor p (itemsAt (acts.written t) e)).Perm
      (if lastAssigned (assignments std acts.assigned) p = some t then
        (List.range workers).flatMap fun w =>
          valuesIn assign (allParts localParts workers) p (itemsAt (acts.partitioned w) e)
      else []) := by
    have hone : ∀ w ∈ List.range workers, valuesFor p
        ((Keyed.valuesOf e (route.outputs (acts.routed w))).filter fun item => item.1 = t) =
          if lastAssigned (assignments std acts.assigned) p = some t then
            valuesIn assign (allParts localParts workers) p (itemsAt (acts.partitioned w) e)
          else [] := fun w hw => valuesFor_labelled (hlabels w (List.mem_range.mp hw) e) t p
    refine ((h.exchanged t ht e).flatMap_right _).trans (List.Perm.of_eq ?_)
    rw [List.flatMap_assoc]
    refine (List.flatMap_congr hone).trans ?_
    split
    · rfl
    · simp
  rcases Nat.lt_or_ge e (horizon (acts.written t)) with hlt | hle
  · rw [ho.written e hlt p]
    exact hvalues
  · have hh : horizon (acts.written t) = beyond (acts.written t) := by rw [horizon, hd.ended]
    rw [ho.writtenTo_eq_nil hle]
    rw [itemsAt_of_not_active (not_active_beyond (hh ▸ hle))] at hvalues
    exact hvalues

/-- **Each item is written once, on the primary of its partition**, if some worker has a partition and
no item comes in the epoch of the assignments, and whatever the batches and the frontiers are in which
the messages arrive, and however those of different workers interleave: no operator of any worker
panics, each partition is written by one worker, which has it, and what is written to it in an epoch
is what came in for it in that epoch, on all workers; and a worker's clock ticks for an epoch when all
of it, and of the epochs before, is written. -/
theorem partdWrite_cluster (std : Unstable P Nat) (assign : K → Nat) (writers : Writers P V W)
    (h : Channels std assign localParts workers acts) (hparts : ∃ w < workers, localParts w ≠ [])
    (hitems : ∀ w < workers, itemsAt (acts.partitioned w) 0 = []) :
    (Runs.run (assignPrimaries std).activate (assignPrimaries std).start acts.assigned).isSome ∧
      (∀ w < workers, (Runs.run (partition assign).activate (partition assign).start
          (acts.partitioned w)).isSome ∧
        (Runs.run route.activate route.start (acts.routed w)).isSome) ∧
      ∃ primary : P → Option Nat,
        (∀ p w, primary p = some w → w < workers ∧ p ∈ localParts w) ∧
        (∀ p, (∃ w < workers, p ∈ localParts w) → (primary p).isSome) ∧
        ∀ t < workers, ∃ s o, Runs.run (partdWrite (K := K) writers (localParts t) t).activate
            (partdWrite (K := K) writers (localParts t) t).start (acts.written t) = some (s, o) ∧
          (o.Pairwise fun call later => call.1 < later.1 ∨ call.1 = later.1 ∧ call.2 ≠ .clock) ∧
          ∀ e p, (writtenTo e p o).Perm (if primary p = some t then
            (List.range workers).flatMap fun w =>
              valuesIn assign (allParts localParts workers) p (itemsAt (acts.partitioned w) e)
            else []) := by
  obtain ⟨hassign, hlater, hsettled⟩ := h.announced.settled std
  have hmem : ∀ p, (∃ w < workers, p ∈ localParts w) → p ∈ allParts localParts workers :=
    fun p ⟨w, hw, hp⟩ => List.mem_map.mpr ⟨(p, w), mem_announcements.mpr ⟨hw, hp⟩, rfl⟩
  have hall : allParts localParts workers ≠ [] := by
    obtain ⟨w, hw, hne⟩ := hparts
    obtain ⟨p, hp⟩ := List.exists_mem_of_ne_nil _ hne
    exact List.ne_nil_of_mem (hmem p ⟨w, hw, hp⟩)
  have hlabels := fun w (hw : w < workers) => h.labels hw hall (hitems w hw) hsettled
    fun e he => updatesBefore_assignments (h.routes w hw) hlater he
  refine ⟨hassign, fun w hw => ⟨(hlabels w hw).1, (hlabels w hw).2.1⟩,
    lastAssigned (assignments std acts.assigned), hsettled.valid,
    fun p hp => hsettled.all p (hmem p hp),
    fun t ht => h.writes writers ht hitems hsettled
      (fun e he => updatesBefore_assignments (h.primaries t ht) hlater he)
      fun w hw => (hlabels w hw).2.2⟩

/-! ### Two workers -/

/-- The single activation of an operator that gets all its input at once. -/
def allAtOnce {A U : Type} (items : List (Nat × List A)) (updates : List (Nat × List U)) :
    List (EpochActivation A U) := [⟨items, updates, none, none⟩]

theorem delivered_allAtOnce {A U : Type} {items : List (Nat × List A)}
    {updates : List (Nat × List U)} (hitems : ∀ m ∈ items, m.2 ≠ [])
    (hupdates : ∀ m ∈ updates, m.2 ≠ []) : Delivered (allAtOnce items updates) where
  schedule := ⟨List.pairwise_singleton _ _, List.pairwise_singleton _ _, List.pairwise_singleton _ _⟩
  ended := rfl
  items a ha := by
    rw [List.mem_singleton.mp ha]
    exact hitems
  updates a ha := by
    rw [List.mem_singleton.mp ha]
    exact hupdates

/-- Two workers with a partition each; the first has three items, one of which the second
writes. -/
def twoWorkers : WriteActivations Nat Nat Nat where
  assigned := allAtOnce [(0, [(10, 0), (11, 1)]), (0, [(11, 1), (10, 0)])] []
  partitioned w := allAtOnce (if w = 0 then [(1, [(0, 5), (1, 6)])] else [(1, [(2, 7)])])
    [(0, [10, 11])]
  routed w := allAtOnce
    (if w = 0 then [(1, [(10, 0, 5), (11, 1, 6)])] else [(1, [(10, 2, 7)])])
    [(0, [(10, 0), (11, 1)])]
  written t := allAtOnce
    (if t = 0 then [(1, [(0, 10, 2, 7)]), (1, [(0, 10, 0, 5)])] else [(1, [(1, 11, 1, 6)])])
    [(0, [(10, 0), (11, 1)])]

/-- What each of them has. -/
def twoParts (w : Nat) : List Nat := [10 + w]

theorem twoWorkers_assigned : (assignPrimaries (CalcPrimaries.stable Nat Nat)).outputs twoWorkers.assigned =
    [(0, 10, 0), (0, 11, 1)] := by decide +kernel

theorem twoWorkers_partd :
    (partition (P := Nat) (V := Nat) id).outputs (twoWorkers.partitioned 0) =
        [(1, 10, 0, 5), (1, 11, 1, 6)] ∧
      (partition (P := Nat) (V := Nat) id).outputs (twoWorkers.partitioned 1) =
        [(1, 10, 2, 7)] := by decide +kernel

theorem twoWorkers_routed :
    route.outputs (twoWorkers.routed 0) = [(1, 0, 10, 0, 5), (1, 1, 11, 1, 6)] ∧
      route.outputs (twoWorkers.routed 1) = [(1, 0, 10, 2, 7)] := by decide +kernel

theorem zero_or_one {w : Nat} (hw : w < 2) : w = 0 ∨ w = 1 := by omega

theorem twoWorkers_channels : Channels (CalcPrimaries.stable Nat Nat) id twoParts 2 twoWorkers where
  announced := {
    announced := by decide +kernel
    once := fun e he => by simp [twoWorkers, allAtOnce, itemsAt, Keyed.valuesOf, Nat.ne_of_gt he]
    delivered := delivered_allAtOnce (by decide) (by decide) }
  known w hw := by
    obtain rfl | rfl := zero_or_one hw
    · decide +kernel
    · decide +kernel
  knownOnce w _ e he := by simp [twoWorkers, allAtOnce, updatesAt, Keyed.valuesOf, Nat.ne_of_gt he]
  routes w _ e := by
    rw [twoWorkers_assigned]
    by_cases he : e = 0
    · simp [twoWorkers, allAtOnce, updatesAt, Keyed.valuesOf, he]
    · simp [twoWorkers, allAtOnce, updatesAt, Keyed.valuesOf, Ne.symm he]
  primaries w _ e := by
    rw [twoWorkers_assigned]
    by_cases he : e = 0
    · simp [twoWorkers, allAtOnce, updatesAt, Keyed.valuesOf, he]
    · simp [twoWorkers, allAtOnce, updatesAt, Keyed.valuesOf, Ne.symm he]
  partd w hw e := by
    obtain rfl | rfl := zero_or_one hw
    · rw [twoWorkers_partd.1]
      by_cases he : e = 1
      · simp [twoWorkers, allAtOnce, itemsAt, Keyed.valuesOf, he]
      · simp [twoWorkers, allAtOnce, itemsAt, Keyed.valuesOf, Ne.symm he]
    · rw [twoWorkers_partd.2]
      by_cases he : e = 1
      · simp [twoWorkers, allAtOnce, itemsAt, Keyed.valuesOf, he]
      · simp [twoWorkers, allAtOnce, itemsAt, Keyed.valuesOf, Ne.symm he]
  exchanged t ht e := by
    have hrange : List.range 2 = [0, 1] := rfl
    rw [hrange, List.flatMap_cons, List.flatMap_singleton, twoWorkers_routed.1,
      twoWorkers_routed.2]
    by_cases he : e = 1
    · subst he
      obtain rfl | rfl := zero_or_one ht
      · decide +kernel
      · decide +kernel
    · obtain rfl | rfl := zero_or_one ht
      · simp [twoWorkers, allAtOnce, itemsAt, Keyed.valuesOf, Ne.symm he]
      · simp [twoWorkers, allAtOnce, itemsAt, Keyed.valuesOf, Ne.symm he]
  delivered w hw := by
    obtain rfl | rfl := zero_or_one hw
    · exact ⟨delivered_allAtOnce (by decide) (by decide),
        delivered_allAtOnce (by decide) (by decide), delivered_allAtOnce (by decide) (by decide)⟩
    · exact ⟨delivered_allAtOnce (by decide) (by decide),
        delivered_allAtOnce (by decide) (by decide), delivered_allAtOnce (by decide) (by decide)⟩

theorem partdWrite_cluster_twoWorkers :
    ∃ primary : Nat → Option Nat,
      (∀ p w, primary p = some w → w < 2 ∧ p ∈ twoParts w) ∧
        ∀ t < 2, ∃ s o, Runs.run
            (partdWrite (K := Nat) ⟨fun _ => [], List.append⟩ (twoParts t) t).activate
            (partdWrite (K := Nat) ⟨fun _ => [], List.append⟩ (twoParts t) t).start
            (twoWorkers.written t) = some (s, o) ∧
          ∀ e p, (writtenTo e p o).Perm (if primary p = some t then
            (List.range 2).flatMap fun w =>
              valuesIn id (allParts twoParts 2) p (itemsAt (twoWorkers.partitioned w) e)
            else []) := by
  obtain ⟨-, -, primary, hvalid, -, hwrites⟩ := partdWrite_cluster (CalcPrimaries.stable Nat Nat)
    id ⟨fun _ => ([] : List Nat), List.append⟩ twoWorkers_channels ⟨0, by decide, by decide⟩
    fun w hw => by
      obtain rfl | rfl := zero_or_one hw
      · rfl
      · rfl
  refine ⟨primary, hvalid, fun t ht => ?_⟩
  obtain ⟨s, o, hr, -, hvalues⟩ := hwrites t ht
  exact ⟨s, o, hr, hvalues⟩

end EpochOp
end Bytewax
