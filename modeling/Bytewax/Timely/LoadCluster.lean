import Bytewax.Timely.Cluster
import Bytewax.Timely.PartdLoad

/-!
# Bytewax.Timely.LoadCluster — `partd_load` on all workers

Worker 0 assigns the partitions, each to a worker that has it, and broadcasts the assignments; each
worker then loads the ones that it is primary for.
-/

namespace Bytewax

open Std (TreeMap TreeSet)

namespace PartdLoad

open EpochOp

variable {P L R : Type} [LinearOrder P]

/-- **The channels**: the assignments are broadcast, and the operator is activated again until its
queue is empty. -/
structure LoadChannels (std : Unstable P Nat) (loaders : Loaders P L R)
    (contents : P → List (List R)) (localParts : Nat → List P) (workers : Nat)
    (assigned : List (EpochActivation (P × Nat) Empty)) (loads : Nat → List (LoadActivation P)) :
    Prop where
  announced : Announced localParts workers assigned
  broadcast : ∀ w < workers,
    ((loads w).flatMap arrivals).Perm ((assignPrimaries std).outputs assigned)
  peeks : ∀ w < workers, Runs.Along (activate loaders (localParts w) w)
    (Peeks (R := R) loaders (localParts w) w) [] (loads w)
  again : ∀ w < workers, ∃ busy idle, loads w = busy ++ idle ∧ idle.flatMap arrivals = [] ∧
    work contents w (busy.flatMap arrivals) ≤ idle.length

variable {std : Unstable P Nat} {loaders : Loaders P L R} {contents : P → List (List R)}
  {localParts : Nat → List P} {workers w : Nat} {assigned : List (EpochActivation (P × Nat) Empty)}
  {loads : Nat → List (LoadActivation P)}

/-- All assignments are of epoch 0. -/
theorem outputs_eq_assignments
    (hlater : ∀ e, 0 < e → Keyed.valuesOf e ((assignPrimaries std).outputs assigned) = []) :
    (assignPrimaries std).outputs assigned = (assignments std assigned).map (Prod.mk 0) := by
  have hzero : ∀ x ∈ (assignPrimaries std).outputs assigned, x.1 = 0 := by
    intro x hx
    by_contra hne
    have hin : x.2 ∈ Keyed.valuesOf x.1 ((assignPrimaries std).outputs assigned) :=
      Keyed.mem_valuesOf.mpr hx
    rw [hlater x.1 (Nat.pos_of_ne_zero hne)] at hin
    cases hin
  rw [assignments, Keyed.valuesOf, List.filter_eq_self.mpr fun x hx => by simp [hzero x hx],
    List.map_map]
  refine (List.map_id _).symm.trans (List.map_congr_left fun x hx => ?_)
  rw [Function.comp_apply, ← hzero x hx]
  rfl

/-- What each worker gets of the assignments. -/
structure Served (localParts : Nat → List P) (workers : Nat) (routes : List (P × Nat))
    (updates : List (ℕ × P × ℕ)) : Prop where
  once : (updates.map fun a => a.2.1).Nodup
  epoch : ∀ a ∈ updates, a.1 = 0
  mem_iff : ∀ p w, (0, p, w) ∈ updates ↔ lastAssigned routes p = some w

theorem LoadChannels.served (h : LoadChannels std loaders contents localParts workers assigned loads)
    (hw : w < workers) :
    Served localParts workers (assignments std assigned) ((loads w).flatMap arrivals) := by
  obtain ⟨-, hlater, hsettled⟩ := h.announced.settled std
  have hperm := h.broadcast w hw
  rw [outputs_eq_assignments hlater] at hperm
  refine ⟨?_, fun a ha => ?_, fun p w => ?_⟩
  · rw [(hperm.map _).nodup_iff, List.map_map]
    exact hsettled.once
  · obtain ⟨x, -, rfl⟩ := List.mem_map.mp (hperm.mem_iff.mp ha)
    rfl
  · rw [hperm.mem_iff]
    constructor
    · rintro hin
      obtain ⟨route, hroute, heq⟩ := List.mem_map.mp hin
      cases heq
      exact lastAssigned_of_mem hsettled.once hroute
    · exact fun hlast => List.mem_map_of_mem (mem_of_lastAssigned hlast)

/-- What a worker is to load. -/
theorem Served.toLoad {routes : List (P × Nat)} {updates : List (ℕ × P × ℕ)}
    (h : Served localParts workers routes updates) (contents : P → List (List R)) (w : Nat) (p : P) :
    Keyed.valuesOf p (toLoad contents w updates) =
      if lastAssigned routes p = some w then contents p else [] := by
  have hkeys : ((ours w updates).map fun a => a.2.1).Nodup :=
    h.once.sublist (List.filter_sublist.map _)
  have hmem : p ∈ ((ours w updates).map fun a => a.2.1) ↔ lastAssigned routes p = some w := by
    rw [← h.mem_iff, List.mem_map]
    constructor
    · rintro ⟨⟨e, q, v⟩, ha, rfl⟩
      obtain ⟨hin, hv⟩ := List.mem_filter.mp ha
      obtain rfl : v = w := of_decide_eq_true hv
      obtain rfl : e = 0 := h.epoch (e, q, v) hin
      exact hin
    · exact fun ha => ⟨(0, p, w), List.mem_filter.mpr ⟨ha, decide_eq_true rfl⟩, rfl⟩
  have hlist : PartdLoad.toLoad contents w updates =
      ((ours w updates).map fun a => a.2.1).flatMap fun k => (contents k).map (Prod.mk k) := by
    rw [PartdLoad.toLoad, List.flatMap_map]
  rw [hlist, Keyed.valuesOf_flatMap_mk p contents hkeys]
  exact if_congr hmem rfl rfl

/-- A worker loads its partitions. -/
theorem LoadChannels.loaded
    (h : LoadChannels std loaders contents localParts workers assigned loads)
    (hreads : ∀ p ∈ allParts localParts workers, loaders.Reads (loaders.builder p) (contents p))
    (hw : w < workers) :
    ∃ o, Runs.run (activate loaders (localParts w) w) [] (loads w) = some ([], o) ∧
      (∀ call ∈ o, call.1 = 0) ∧
      ∀ p, Keyed.valuesOf p (batchesOf o) =
        if lastAssigned (assignments std assigned) p = some w then contents p else [] := by
  obtain ⟨-, -, hsettled⟩ := h.announced.settled std
  have hserved := h.served hw
  have hknown : ∀ x ∈ (loads w).flatMap arrivals, Known loaders contents (localParts w) w x := by
    rintro ⟨e, p, v⟩ hx rfl
    obtain rfl := hserved.epoch _ hx
    obtain ⟨hv, hlocal⟩ := hsettled.valid p v ((hserved.mem_iff p v).mp hx)
    exact ⟨hlocal, hreads p (List.mem_map.mpr ⟨(p, v), mem_announcements.mpr ⟨hv, hlocal⟩, rfl⟩)⟩
  obtain ⟨busy, idle, hloads, hidle, hwork⟩ := h.again w hw
  have hpeeks := h.peeks w hw
  have htoLoad := hserved.toLoad contents w
  have honce := hserved.once
  rw [hloads] at hpeeks hknown honce htoLoad ⊢
  simp only [List.flatMap_append, hidle, List.append_nil] at hknown honce htoLoad
  obtain ⟨parts, n, o₁, hrun, hq⟩ := run_queued hknown honce
  have hn : n - idle.length = 0 := by
    obtain ⟨queue', -, hloading, rfl⟩ := hq
    exact Nat.sub_eq_zero_of_le (hloading.work.trans hwork)
  obtain ⟨parts', o₂, hrun', hq'⟩ := hq.run_idle hidle (Runs.along_append hpeeks hrun)
  rw [hn] at hq'
  have hepoch : ∀ call ∈ o₁ ++ o₂, call.1 = 0 := by
    obtain ⟨queue', -, hloading, -⟩ := hq'
    intro call hcall
    have hin := hloading.calls call hcall
    have hall := hserved.epoch _ (by
      rw [hloads, List.flatMap_append]
      exact List.mem_append_left _ hin)
    exact hall
  obtain ⟨rfl, hread⟩ := hq'.drained
  exact ⟨o₁ ++ o₂, Runs.run_append_of_eq_some hrun hrun', hepoch,
    fun p => (hread p).trans (htoLoad p)⟩

/-- The worker that is primary for a partition. -/
theorem LoadChannels.primary
    (h : LoadChannels std loaders contents localParts workers assigned loads) {p : P}
    (hp : p ∈ allParts localParts workers) :
    ∃ w < workers, p ∈ localParts w ∧ lastAssigned (assignments std assigned) p = some w := by
  obtain ⟨-, -, hsettled⟩ := h.announced.settled std
  obtain ⟨w, hprim⟩ := Option.isSome_iff_exists.mp (hsettled.all p hp)
  obtain ⟨hw, hlocal⟩ := hsettled.valid p w hprim
  exact ⟨w, hw, hlocal, hprim⟩

/-- Workers that load what they are primary for load in all just what the partitions hold. -/
theorem LoadChannels.batches_perm
    (h : LoadChannels std loaders contents localParts workers assigned loads)
    {calls : Nat → List (ℕ × LoadCall P R)}
    (hbatches : ∀ w < workers, ∀ p, Keyed.valuesOf p (batchesOf (calls w)) =
      if lastAssigned (assignments std assigned) p = some w then contents p else []) :
    ((List.range workers).flatMap fun w => batchesOf (calls w)).Perm
      ((allParts localParts workers).dedup.flatMap fun p => (contents p).map (Prod.mk p)) := by
  obtain ⟨-, -, hsettled⟩ := h.announced.settled std
  refine Keyed.perm_of_valuesOf fun p => .of_eq ?_
  rw [Keyed.valuesOf_flatMap_mk p contents (List.nodup_dedup _), Keyed.valuesOf_flatMap,
    List.flatMap_congr fun w hw => hbatches w (List.mem_range.mp hw) p]
  by_cases hp : p ∈ allParts localParts workers
  · obtain ⟨w, hw, -, hprim⟩ := h.primary hp
    have hnodup : (List.range workers).Nodup := List.nodup_range
    have hone := Keyed.flatMap_ite w (fun _ => contents p) hnodup
    rw [if_pos (List.mem_range.mpr hw)] at hone
    rw [if_pos (List.mem_dedup.mpr hp)]
    refine Eq.trans (List.flatMap_congr fun v _ => if_congr ?_ rfl rfl) hone
    rw [hprim, Option.some.injEq, eq_comm]
  · rw [if_neg fun hin => hp (List.mem_dedup.mp hin), List.flatMap_eq_nil_iff]
    intro w hw
    refine if_neg fun hprim => hp ?_
    obtain ⟨hlt, hlocal⟩ := hsettled.valid p w hprim
    exact List.mem_map.mpr ⟨(p, w), mem_announcements.mpr ⟨hlt, hlocal⟩, rfl⟩

/-- **Each partition is loaded once**, whatever the batches are in which the assignments arrive and
whichever of its partitions a worker reads next: worker 0 assigns the partitions without a panic, no
worker panics and each empties its queue, all is sent in epoch 0, each partition is read to its end,
in order, by one worker, which has it, and so the workers send in all just what the partitions
hold. -/
theorem partdLoad_cluster (std : Unstable P Nat)
    (h : LoadChannels std loaders contents localParts workers assigned loads)
    (hreads : ∀ p ∈ allParts localParts workers, loaders.Reads (loaders.builder p) (contents p)) :
    (Runs.run (assignPrimaries std).activate (assignPrimaries std).start assigned).isSome ∧
    ∃ calls : Nat → List (ℕ × LoadCall P R),
      (∀ w < workers,
        Runs.run (activate loaders (localParts w) w) [] (loads w) = some ([], calls w) ∧
          ∀ call ∈ calls w, call.1 = 0) ∧
      (∀ p ∈ allParts localParts workers, ∃ w < workers, p ∈ localParts w ∧
        Keyed.valuesOf p (batchesOf (calls w)) = contents p ∧
        ∀ v < workers, v ≠ w → Keyed.valuesOf p (batchesOf (calls v)) = []) ∧
      ((List.range workers).flatMap fun w => batchesOf (calls w)).Perm
        ((allParts localParts workers).dedup.flatMap fun p => (contents p).map (Prod.mk p)) := by
  choose! calls hrun hepoch hbatches using fun w hw => h.loaded hreads (w := w) hw
  refine ⟨(h.announced.settled std).1, calls, fun w hw => ⟨hrun w hw, hepoch w hw⟩, fun p hp => ?_,
    h.batches_perm hbatches⟩
  obtain ⟨w, hw, hlocal, hprim⟩ := h.primary hp
  refine ⟨w, hw, hlocal, by rw [hbatches w hw, if_pos hprim], fun v hv hne => ?_⟩
  rw [hbatches v hv, if_neg]
  rw [hprim]
  exact fun heq => hne (Option.some.inj heq).symm

/-! ### Two workers with a partition each -/

/-- What each of the workers sees: both assignments, and then nothing, twice. -/
def twoLoads : List (LoadActivation Nat) := [⟨[(0, [(10, 0), (11, 1)])], 0⟩, ⟨[], 0⟩, ⟨[], 0⟩]

/-- A batch of one row. -/
def oneRow (p : Nat) : List (List Nat) := [[p]]

theorem peeks_single {localParts : List P} {a : LoadActivation P}
    {queue queue' : List (LoadPartEntry P L)} {built : List (ℕ × LoadCall P R)}
    (hrun : Runs.run (assign loaders localParts w) queue (arrivals a) = some (queue', built))
    (htop : queue' = [] ∨ a.top = 0 ∧ ∃ entry, queue' = [entry]) :
    Peeks (R := R) loaders localParts w queue a := by
  intro q o hq
  rw [hrun] at hq
  cases hq
  rcases htop with rfl | ⟨htop, entry, rfl⟩
  · exact .inl rfl
  · rw [htop]
    refine .inr ⟨entry, rfl, fun other hother => ?_⟩
    rw [List.mem_singleton.mp hother]

/-- A worker that loads one partition of one batch. -/
theorem peeks_one_batch {localParts : List P} {primaries : List (ℕ × List (P × ℕ))} {p : P}
    {part part' : L} {items : List R}
    (hassign : Runs.run (assign loaders localParts w) [] (arrivals ⟨primaries, 0⟩) =
      some ([⟨0, p, loaders.builder p⟩], [(0, .built p)]))
    (hbatch : loaders.nextBatch (loaders.builder p) = some (some items, part))
    (heof : loaders.nextBatch part = some (none, part')) :
    Runs.Along (activate loaders localParts w) (Peeks (R := R) loaders localParts w) []
      [⟨primaries, 0⟩, ⟨[], 0⟩, ⟨[], 0⟩] := by
  have hread : readTop loaders [⟨0, p, loaders.builder p⟩] 0 =
      some ([⟨0, p, part⟩], [(0, .batch p items)]) := by simp [readTop, hbatch]
  have hend : readTop loaders [⟨0, p, part⟩] 0 = some ([], [(0, .eof p)]) := by simp [readTop, heof]
  refine ⟨peeks_single hassign (.inr ⟨rfl, _, rfl⟩), fun s o hs => ?_⟩
  rw [activate_eq hassign hread] at hs
  cases hs
  refine ⟨peeks_single rfl (.inr ⟨rfl, _, rfl⟩), fun s o hs => ?_⟩
  rw [activate_eq rfl hend] at hs
  cases hs
  exact ⟨peeks_single rfl (.inl rfl), fun _ _ _ => trivial⟩

theorem twoLoads_channels : LoadChannels (CalcPrimaries.stable Nat Nat) (.ofBatches oneRow) oneRow
    twoParts 2 twoWorkers.assigned fun _ => twoLoads where
  announced := twoWorkers_channels.announced
  broadcast w _ := by
    rw [twoWorkers_assigned]
    decide
  peeks w hw := by
    obtain rfl | rfl := zero_or_one hw
    · exact peeks_one_batch (p := 10) rfl rfl rfl
    · exact peeks_one_batch (p := 11) rfl rfl rfl
  again w hw := by
    refine ⟨twoLoads.take 1, twoLoads.drop 1, rfl, rfl, ?_⟩
    obtain rfl | rfl := zero_or_one hw
    · decide
    · decide

theorem partdLoad_cluster_twoLoads : ∃ calls : Nat → List (ℕ × LoadCall Nat Nat),
    (∀ w < 2, Runs.run (activate (.ofBatches oneRow) (twoParts w) w) [] twoLoads =
      some ([], calls w) ∧ ∀ call ∈ calls w, call.1 = 0) ∧
    ((List.range 2).flatMap fun w => batchesOf (calls w)).Perm [(10, [10]), (11, [11])] := by
  obtain ⟨-, calls, hrun, -, hperm⟩ := partdLoad_cluster (CalcPrimaries.stable Nat Nat)
    twoLoads_channels fun p _ => .batch rfl (.eof rfl)
  exact ⟨calls, hrun, hperm⟩

end PartdLoad
end Bytewax
