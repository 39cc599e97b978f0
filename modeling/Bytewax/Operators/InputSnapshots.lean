import Bytewax.Lib.Keyed
import Bytewax.Operators.PartitionTrace
import Mathlib.Data.Nat.Basic

/-!
# Bytewax.Operators.InputSnapshots — the snapshots of a partitioned input match what it emitted

Whatever the partitions answer and whenever the operator is activated, what happens to a partition
is one of its lives (`Stands`): the loads and the end of the loads build it, and each turn of the
loop over the partitions polls it.  While loads can still arrive no partition is polled, since the
probe is behind the epoch at which all of them start.
-/

namespace Bytewax

open Std (TreeMap TreeSet)

namespace PartitionedInput

variable {K X S P : Type}

/-- The partition that the operator holds is the one of this life. -/
def Matches : Life P → Option (PartitionedPartState P) → Prop
  | .live part epoch, some p => p.part = part ∧ p.downstreamCap = epoch ∧ p.snapCap = epoch
  | .unbuilt, none => True
  | .ended _ _, none => True
  | _, _ => False

/-- What has happened to a partition is a life of it, and it stands where the operator has it. -/
def Stands (source : FixedPartitionedSource K X S P) (partKey : K) (t : List (PartEvent X S))
    (p : Option (PartitionedPartState P)) : Prop :=
  ∃ life, Lives source partKey t life ∧ Matches life p

section Stands

variable {source : FixedPartitionedSource K X S P} {partKey : K} {t : List (PartEvent X S)}
  {p : PartitionedPartState P} {epochInterval now : Int} {probe : Frontier}

theorem Stands.nil : Stands source partKey [] none := ⟨.unbuilt, .unbuilt, trivial⟩

theorem Stands.new (epoch : Nat) (now : Int) (resumeState : Option S) :
    Stands source partKey [.built epoch now resumeState]
      (some (newPart source now partKey resumeState epoch epoch)) :=
  ⟨_, .built epoch now resumeState, rfl, rfl, rfl⟩

/-- A partition that the operator holds is live, in the epoch of both of its capabilities. -/
theorem Stands.live (h : Stands source partKey t (some p)) :
    Lives source partKey t (.live p.part p.downstreamCap) ∧ p.snapCap = p.downstreamCap := by
  obtain ⟨life, hlives, hmatch⟩ := h
  cases life with
  | unbuilt => cases hmatch
  | ended part epoch => cases hmatch
  | live part epoch =>
    obtain ⟨rfl, rfl, hsnap⟩ := hmatch
    exact ⟨hlives, hsnap⟩

/-- A poll is answered by the source, and leaves the capabilities and the time of the epoch. -/
theorem nextBatch_eq_some {q : PartitionedPartState P} {batchRes : BatchResult X}
    (h : nextBatch source now p = some (q, batchRes)) :
    source.nextBatch p.part p.nextAwake = (q.part, batchRes) ∧
      q.downstreamCap = p.downstreamCap ∧ q.snapCap = p.snapCap := by
  unfold nextBatch at h
  rcases hpoll : source.nextBatch p.part p.nextAwake with ⟨part, res⟩
  rw [hpoll] at h
  cases res with
  | eof =>
    cases h
    exact ⟨rfl, rfl, rfl⟩
  | abort =>
    cases h
    exact ⟨rfl, rfl, rfl⟩
  | batch items =>
    obtain ⟨next, -, h⟩ := Option.bind_eq_some_iff.mp h
    cases h
    exact ⟨rfl, rfl, rfl⟩

/-- An epoch is left with a snapshot, and always when the partition is at its end. -/
theorem advance_cases (source : FixedPartitionedSource K X S P) (epochInterval now : Int)
    (eof : Bool) (p : PartitionedPartState P) :
    (eof = false ∧ advance source epochInterval now eof p = (p, [])) ∨
      ∃ q, advance source epochInterval now eof p = (q, [.snap p.snapCap (source.snapshot p.part)]) ∧
        q.part = p.part ∧ q.downstreamCap = p.downstreamCap + 1 ∧
        q.snapCap = p.downstreamCap + 1 := by
  unfold advance
  split
  · exact .inr ⟨_, rfl, rfl, rfl, rfl⟩
  · rename_i hnot
    exact .inl ⟨by simpa using fun he => hnot (.inr he), rfl⟩

/-- Before the dataflow has caught up with its epoch, a partition is left alone. -/
theorem pollPart_of_lessThan (hcap : p.snapCap = p.downstreamCap)
    (hprobe : probe.LessThan p.downstreamCap) :
    pollPart source epochInterval now probe p = some ⟨p, false, false, []⟩ := by
  unfold pollPart
  rw [if_neg (by simp [hcap]), if_neg (fun h => h.1 hprobe)]

/-- **A turn of the loop over the partitions**: the partition is left alone, or it is polled in an
epoch that the dataflow has caught up with, and may leave the epoch. -/
theorem pollPart_cases {polled : PolledPart X S P}
    (hp : pollPart source epochInterval now probe p = some polled) :
    polled = ⟨p, false, false, []⟩ ∨
      ∃ q batchRes snaps, ¬ probe.LessThan p.downstreamCap ∧
        nextBatch source now p = some (q, batchRes) ∧
        advance source epochInterval now batchRes.isEof q = (polled.partState, snaps) ∧
        polled.eof = batchRes.isEof ∧
        polled.events = .nextBatch p.downstreamCap p.nextAwake batchRes :: snaps := by
  unfold pollPart at hp
  split at hp
  · cases hp
  · split at hp
    · rename_i hdue
      obtain ⟨⟨q, batchRes⟩, hbatch, hp⟩ := Option.bind_eq_some_iff.mp hp
      cases hp
      exact .inr ⟨q, batchRes, _, hdue.1, hbatch, rfl, rfl, rfl⟩
    · cases hp
      exact .inl rfl

/-- A turn of the loop over the partitions is the next part of the life of the partition. -/
theorem Stands.polled {polled : PolledPart X S P} (h : Stands source partKey t (some p))
    (hp : pollPart source epochInterval now probe p = some polled) :
    Stands source partKey (t ++ polled.events)
      (if polled.eof then none else some polled.partState) := by
  rcases pollPart_cases hp with rfl | ⟨q, batchRes, snaps, -, hbatch, hadv, heof, hev⟩
  · rw [List.append_nil]
    exact h
  · obtain ⟨hlives, hcap⟩ := h.live
    obtain ⟨hpoll, hdown, hsnap⟩ := nextBatch_eq_some hbatch
    rw [hcap] at hsnap
    rw [hev, heof]
    rcases advance_cases source epochInterval now batchRes.isEof q with
      ⟨hlive, hq⟩ | ⟨q', hq, hpart, hdown', hsnap'⟩
    · obtain ⟨rfl, rfl⟩ := Prod.mk.inj (hq.symm.trans hadv)
      rw [hlive]
      refine ⟨_, hlives.polled hpoll ?_, rfl, hdown, hsnap⟩
      rintro rfl
      cases hlive
    · obtain ⟨rfl, rfl⟩ := Prod.mk.inj (hq.symm.trans hadv)
      rw [hsnap]
      cases batchRes with
      | eof => exact ⟨_, hlives.ended hpoll, trivial⟩
      | abort =>
        rw [List.append_cons]
        exact ⟨_, (hlives.polled hpoll nofun).snapped, hpart, by omega, by omega⟩
      | batch items =>
        rw [List.append_cons]
        exact ⟨_, (hlives.polled hpoll nofun).snapped, hpart, by omega, by omega⟩

/-- A poll does not build the partition again. -/
theorem builds_of_pollPart {polled : PolledPart X S P}
    (h : pollPart source epochInterval now probe p = some polled) :
    builds polled.events = [] := by
  rcases pollPart_cases h with rfl | ⟨q, batchRes, snaps, -, -, hadv, -, hev⟩
  · rfl
  · rw [hev]
    rcases advance_cases source epochInterval now batchRes.isEof q with ⟨-, hq⟩ | ⟨q', hq, -⟩
    · obtain ⟨-, rfl⟩ := Prod.mk.inj (hq.symm.trans hadv)
      rfl
    · obtain ⟨-, rfl⟩ := Prod.mk.inj (hq.symm.trans hadv)
      rfl

end Stands

/-- A partition is built at most once: from its load, at the load's epoch but not before the resume
epoch, or from nothing at the resume epoch when it has no load. -/
def BuiltFromLoad (startAt : Nat) (loads : List (Nat × S)) (t : List (PartEvent X S)) : Prop :=
  (loads = [] ∧ builds t = []) ∨
    ∃ now, builds t = [((loads.head?.map fun load => max load.1 startAt).getD startAt, now,
      loads.head?.map Prod.snd)]

/-- Before the end of the loads: a partition is there when it was loaded, and nothing has happened
to it since. -/
def Loaded (source : FixedPartitionedSource K X S P) (startAt : Nat) (k : K)
    (loads : List (Nat × S)) (t : List (PartEvent X S)) (p : Option (PartitionedPartState P)) :
    Prop :=
  (loads = [] ∧ t = [] ∧ p = none) ∨
    ∃ load now, loads = [load] ∧ t = [.built (max load.1 startAt) now (some load.2)] ∧
      p = some (newPart source now k (some load.2) (max load.1 startAt) (max load.1 startAt))

section Loaded

variable {source : FixedPartitionedSource K X S P} {startAt : Nat} {epochInterval : Int} {k : K}
  {loads new : List (Nat × S)} {t : List (PartEvent X S)} {p : Option (PartitionedPartState P)}

theorem Loaded.stands (h : Loaded source startAt k loads t p) : Stands source k t p := by
  rcases h with ⟨-, rfl, rfl⟩ | ⟨load, now, -, rfl, rfl⟩
  · exact .nil
  · exact .new _ now _

theorem Loaded.builtFromLoad (h : Loaded source startAt k loads t p) :
    BuiltFromLoad startAt loads t := by
  rcases h with ⟨rfl, rfl, -⟩ | ⟨load, now, rfl, rfl, -⟩
  · exact .inl ⟨rfl, rfl⟩
  · exact .inr ⟨now, rfl⟩

/-- More loads arrive. -/
theorem Loaded.append {now : Int} (h : Loaded source startAt k loads t p)
    (hlen : (loads ++ new).length ≤ 1) :
    Loaded source startAt k (loads ++ new)
      (t ++ new.map fun load => .built (max load.1 startAt) now (some load.2))
      ((new.getLast?.map fun load =>
        newPart source now k (some load.2) (max load.1 startAt) (max load.1 startAt)).or p) := by
  rcases h with ⟨rfl, rfl, rfl⟩ | ⟨load, now', rfl, rfl, rfl⟩
  · cases new with
    | nil => exact .inl ⟨rfl, rfl, rfl⟩
    | cons load new =>
      obtain rfl : new = [] := by simpa using hlen
      exact .inr ⟨load, now, rfl, rfl, rfl⟩
  · obtain rfl : new = [] := by simpa using hlen
    exact .inr ⟨load, now', rfl, rfl, rfl⟩

/-- While the probe is behind the resume epoch, nothing happens to a loaded partition. -/
theorem Loaded.pollPart {now : Int} {probe : Frontier} {q : PartitionedPartState P}
    (h : Loaded source startAt k loads t (some q)) (hprobe : probe.LessThan startAt) :
    pollPart source epochInterval now probe q = some ⟨q, false, false, []⟩ := by
  rcases h with ⟨-, -, hq⟩ | ⟨load, now', -, -, hq⟩
  · cases hq
  · cases hq
    exact pollPart_of_lessThan rfl (hprobe.mono (Nat.le_max_right _ _))

theorem BuiltFromLoad.append {t' : List (PartEvent X S)} (h : BuiltFromLoad startAt loads t)
    (ht' : builds t' = []) : BuiltFromLoad startAt loads (t ++ t') := by
  unfold BuiltFromLoad
  rw [builds_append, ht', List.append_nil]
  exact h

end Loaded

/-- What has happened to a partition, and what the operator holds of it, match its snapshots. -/
structure SnapshotsMatch (source : FixedPartitionedSource K X S P) (startAt : Nat) (k : K)
    (loads : List (Nat × S)) (t : List (PartEvent X S)) (p : Option (PartitionedPartState P)) :
    Prop where
  built : BuiltFromLoad startAt loads t
  caps : ∀ q ∈ p, q.snapCap = q.downstreamCap ∧ currentEpoch t = some q.downstreamCap
  inCurrentEpoch : InCurrentEpoch t
  afterSnap : t.Pairwise fun x y => x.isSnap → x.epoch < y.epoch
  eof : ∀ pre e sched post, t = pre ++ .nextBatch e sched .eof :: post →
    ∃ state, post = [.snap e state]
  reflects : ∀ r, (∀ q ∈ p, r ≤ q.downstreamCap) → Reflects source k t r

theorem snapshotsMatch {source : FixedPartitionedSource K X S P} {startAt : Nat} {k : K}
    {loads : List (Nat × S)} {t : List (PartEvent X S)} {p : Option (PartitionedPartState P)}
    (hstands : Stands source k t p) (hbuilt : BuiltFromLoad startAt loads t) :
    SnapshotsMatch source startAt k loads t p := by
  have hlive : ∀ q ∈ p, Lives source k t (.live q.part q.downstreamCap) ∧
      q.snapCap = q.downstreamCap := by
    rintro q rfl
    exact hstands.live
  obtain ⟨life, hlives, hmatch⟩ := hstands
  refine
    { built := hbuilt
      caps := fun q hq => ⟨(hlive q hq).2, (hlive q hq).1.currentEpoch_eq⟩
      inCurrentEpoch := hlives.inCurrentEpoch
      afterSnap := hlives.pairwise
      eof := fun pre e sched post => hlives.eof_snap
      reflects := fun r hr => hlives.reflects ?_ }
  rintro part epoch rfl
  cases p with
  | none => cases hmatch
  | some q =>
    obtain ⟨-, rfl, -⟩ := hmatch
    exact hr q rfl

/-- The state that a load brings, for its partition and with its epoch. -/
def upsert? (load : Nat × Nat × K × StateChange S) : Option (K × Nat × S) :=
  match load.2.2.2 with
  | .upsert state => some (load.2.2.1, load.1, state)
  | .discard => none

/-- The states that are loaded in an activation. -/
def upserts (a : InputActivation K S) : List (K × Nat × S) := (loadsOf a).filterMap upsert?

variable [LinearOrder K]

section Phases

variable {source : FixedPartitionedSource K X S P} {thisWorker startAt : Nat} {now : Int}
  {parts parts' : TreeMap K (PartitionedPartState P)} {events : List (K × PartEvent X S)}

/-- **The loads of an activation, as a partition sees them**: each state that is loaded builds it,
and the last one stays. -/
theorem run_loadStep {loads : List (Nat × Nat × K × StateChange S)}
    (h : Runs.run (loadStep source thisWorker startAt now) parts loads = some (parts', events))
    (k : K) :
    Keyed.valuesOf k events = (Keyed.valuesOf k (loads.filterMap upsert?)).map (fun load =>
        .built (max load.1 startAt) now (some load.2)) ∧
      parts'[k]? = ((Keyed.valuesOf k (loads.filterMap upsert?)).getLast?.map fun load =>
        newPart source now k (some load.2) (max load.1 startAt) (max load.1 startAt)).or
          parts[k]? := by
  refine Runs.run_history (P := fun loads parts' events =>
    Keyed.valuesOf k events = (Keyed.valuesOf k (loads.filterMap upsert?)).map (fun load =>
        .built (max load.1 startAt) now (some load.2)) ∧
      parts'[k]? = ((Keyed.valuesOf k (loads.filterMap upsert?)).getLast?.map fun load =>
        newPart source now k (some load.2) (max load.1 startAt) (max load.1 startAt)).or
          parts[k]?)
    (Q := fun _ _ => True) ?_ ⟨rfl, rfl⟩ (Runs.along_true _ _) h
  rintro loads parts₁ events ⟨loadEpoch, worker, key, change⟩ parts₂ new ⟨hev, hparts⟩ - hs
  by_cases hw : worker = thisWorker
  · cases change with
    | discard =>
      simp only [loadStep, hw, if_true] at hs
      cases hs
      have hnil : [(loadEpoch, worker, key, (.discard : StateChange S))].filterMap upsert? = [] :=
        rfl
      rw [List.filterMap_append, hnil, List.append_nil, List.append_nil]
      exact ⟨hev, hparts⟩
    | upsert state =>
      simp only [loadStep, hw, if_true] at hs
      cases hs
      by_cases hk : key = k
      · subst hk
        simp [upsert?, hev, Keyed.valuesOf_cons]
      · simp [upsert?, hev, hparts, Keyed.valuesOf_cons, hk, TreeMap.getElem?_insert]
  · simp only [loadStep, hw, if_false] at hs
    cases hs

/-- **The end of the loads, as a partition sees it**: a primary partition that was not loaded is
built from nothing. -/
theorem run_initStep {cap snapCap : Nat} {keys : List K}
    (h : Runs.run (initStep source now cap snapCap) parts keys = some (parts', events)) (k : K) :
    (parts[k]? = none ∧ Keyed.valuesOf k events = [.built cap now none] ∧
        parts'[k]? = some (newPart source now k none cap snapCap)) ∨
      (Keyed.valuesOf k events = [] ∧ parts'[k]? = parts[k]?) := by
  refine Runs.run_history (P := fun keys parts' events =>
    (parts[k]? = none ∧ Keyed.valuesOf k events = [.built cap now none] ∧
        parts'[k]? = some (newPart source now k none cap snapCap)) ∨
      (Keyed.valuesOf k events = [] ∧ parts'[k]? = parts[k]?))
    (Q := fun _ _ => True) ?_ (.inr ⟨rfl, rfl⟩) (Runs.along_true _ _) h
  rintro keys parts₁ events key parts₂ new hP - hs
  unfold initStep at hs
  split at hs
  · cases hs
    simpa using hP
  · rename_i hmem
    cases hs
    by_cases hk : key = k
    · subst hk
      have hnone : parts₁[key]? = none := by simpa using hmem
      rcases hP with ⟨-, -, hsome⟩ | ⟨hev, hparts⟩
      · rw [hnone] at hsome
        cases hsome
      · rw [hnone] at hparts
        exact .inl ⟨hparts.symm, by simp [hev, Keyed.valuesOf_cons], by simp⟩
    · simpa [Keyed.valuesOf_cons, hk, TreeMap.getElem?_insert] using hP

/-- **The loop over the partitions, as a partition sees it**: it has one turn. -/
theorem run_partStep {epochInterval : Int} {probe : Frontier} {s s' : PollState K P}
    {entries : List (K × PartitionedPartState P)} (hnd : (entries.map Prod.fst).Nodup)
    (h : Runs.run (partStep source epochInterval now probe) s entries = some (s', events)) (k : K) :
    (∀ p, (k, p) ∈ entries → ∃ polled, pollPart source epochInterval now probe p = some polled ∧
        Keyed.valuesOf k events = polled.events ∧ s'.parts[k]? = some polled.partState ∧
        (k ∈ s'.eofdPartsBuffer ↔ k ∈ s.eofdPartsBuffer ∨ polled.eof)) ∧
      (k ∉ entries.map Prod.fst → Keyed.valuesOf k events = [] ∧ s'.parts[k]? = s.parts[k]? ∧
        (k ∈ s'.eofdPartsBuffer ↔ k ∈ s.eofdPartsBuffer)) := by
  induction entries generalizing s events with
  | nil =>
    cases h
    exact ⟨nofun, fun _ => ⟨rfl, rfl, Iff.rfl⟩⟩
  | cons entry entries ih =>
    obtain ⟨s₁, o₁, o₂, hs, hr, rfl⟩ := Runs.exists_of_run_cons h
    obtain ⟨hnot, hnd⟩ := List.nodup_cons.mp hnd
    obtain ⟨hmem, hframe⟩ := ih hnd hr
    obtain ⟨key, q⟩ := entry
    obtain ⟨polled, hpoll, hs⟩ := Option.bind_eq_some_iff.mp hs
    cases hs
    by_cases hk : key = k
    · subst hk
      obtain ⟨hev, hparts, heofd⟩ := hframe hnot
      refine ⟨fun p hp => ?_, fun hkey => absurd (by simp) hkey⟩
      rcases List.mem_cons.mp hp with hp | hp
      · cases hp
        refine ⟨polled, hpoll, ?_, ?_, ?_⟩
        · rw [Keyed.valuesOf_append, Keyed.valuesOf_map_mk, hev, List.append_nil]
        · rw [hparts, TreeMap.getElem?_insert_self]
        · rw [heofd]
          cases polled.eof <;> simp
      · exact absurd (List.mem_map.mpr ⟨_, hp, rfl⟩) hnot
    · have hev : Keyed.valuesOf k (polled.events.map fun event => (key, event)) = [] :=
        Keyed.valuesOf_eq_nil fun hmem => by
          obtain ⟨_, hx, rfl⟩ := List.mem_map.mp hmem
          obtain ⟨ev, -, rfl⟩ := List.mem_map.mp hx
          exact hk rfl
      have heofd : k ∈ (if polled.eof then s.eofdPartsBuffer ++ [key] else s.eofdPartsBuffer) ↔
          k ∈ s.eofdPartsBuffer := by
        split
        · simp [Ne.symm hk]
        · exact Iff.rfl
      refine ⟨fun p hp => ?_, fun hkey => ?_⟩
      · obtain ⟨polled', hpoll', hev', hparts, heofd'⟩ :=
          hmem p ((List.mem_cons.mp hp).resolve_left fun he => hk (Prod.mk.inj he).1.symm)
        refine ⟨polled', hpoll', ?_, hparts, ?_⟩
        · rw [Keyed.valuesOf_append, hev, hev', List.nil_append]
        · rw [heofd', heofd]
      · obtain ⟨hev', hparts, heofd'⟩ := hframe fun hmem => hkey (List.mem_cons_of_mem _ hmem)
        refine ⟨?_, ?_, ?_⟩
        · rw [Keyed.valuesOf_append, hev, hev', List.nil_append]
        · rw [hparts, TreeMap.getElem?_insert, if_neg (by simpa using hk)]
        · rw [heofd', heofd]

/-- What is left when the partitions at their end are removed. -/
theorem getElem?_foldl_erase (keys : List K) (parts : TreeMap K (PartitionedPartState P)) (k : K) :
    (keys.foldl (fun parts part => parts.erase part) parts)[k]? =
      if k ∈ keys then none else parts[k]? := by
  induction keys generalizing parts with
  | nil => rfl
  | cons key keys ih =>
    rw [List.foldl_cons, ih, TreeMap.getElem?_erase]
    by_cases hk : k = key
    · simp [hk]
    · simp [hk, Ne.symm hk]

/-- **The polls of an activation, as a partition sees them.** -/
theorem pollParts_key {epochInterval : Int} {probe : Frontier} {s s' : InputState K P}
    (h : pollParts source epochInterval now probe s = some (s', events)) (k : K) :
    (∀ p, s.parts[k]? = some p →
      ∃ polled, pollPart source epochInterval now probe p = some polled ∧
        Keyed.valuesOf k events = polled.events ∧
        s'.parts[k]? = if polled.eof then none else some polled.partState) ∧
      (s.parts[k]? = none → Keyed.valuesOf k events = [] ∧ s'.parts[k]? = none) := by
  obtain ⟨⟨polls, o⟩, hr, h⟩ := Option.bind_eq_some_iff.mp h
  cases h
  have hnd : (s.parts.toList.map Prod.fst).Nodup := by
    rw [TreeMap.map_fst_toList_eq_keys]
    exact TreeMap.nodup_keys
  obtain ⟨hmem, hframe⟩ := run_partStep hnd hr k
  constructor
  · intro p hp
    obtain ⟨polled, hpoll, hev, hparts, heofd⟩ :=
      hmem p (TreeMap.mem_toList_iff_getElem?_eq_some.mpr hp)
    refine ⟨polled, hpoll, hev, ?_⟩
    rw [getElem?_foldl_erase, hparts]
    exact if_congr (by simpa using heofd) rfl rfl
  · intro hnone
    have hkey : k ∉ s.parts.toList.map Prod.fst := by
      simpa [TreeMap.map_fst_toList_eq_keys] using hnone
    obtain ⟨hev, hparts, heofd⟩ := hframe hkey
    refine ⟨hev, ?_⟩
    rw [getElem?_foldl_erase, hparts, hnone, ite_self]

end Phases

/-- What Timely and the recovery loader guarantee of the activations: there is at most one state to
load for a partition, the probe is behind the resume epoch while there can be more loads, and there
are none after the end of that input. -/
structure Schedule (startAt : Nat) (as : List (InputActivation K S)) : Prop where
  loads : ∀ k, (Keyed.valuesOf k (as.flatMap upserts)).length ≤ 1
  probe : ∀ a ∈ as, a.loadsFrontier.isEof = false → a.probe.LessThan startAt
  ended : as.Pairwise fun a b => a.loadsFrontier.isEof → b.loads = []

section Run

variable {source : FixedPartitionedSource K X S P} {thisWorker startAt : Nat}
  {epochInterval : Int}

variable (source startAt) in
/-- What holds after the activations `as`, which left `s` and the events. -/
structure Inv (as : List (InputActivation K S)) (s : InputState K P)
    (events : List (K × PartEvent X S)) : Prop where
  stands : ∀ k, Stands source k (Keyed.valuesOf k events) s.parts[k]?
  built : ∀ k, BuiltFromLoad startAt (Keyed.valuesOf k (as.flatMap upserts))
    (Keyed.valuesOf k events)
  loading : ∀ caps, s.initCaps = some caps → caps = (startAt, startAt) ∧
    ∀ k, Loaded source startAt k (Keyed.valuesOf k (as.flatMap upserts)) (Keyed.valuesOf k events)
      s.parts[k]?
  ended : s.initCaps = none → ∃ a ∈ as, a.loadsFrontier.isEof

theorem Inv.init : Inv source startAt [] (init startAt) [] := by
  have hloaded : ∀ k, Loaded source startAt k (Keyed.valuesOf k ([].flatMap upserts))
      (Keyed.valuesOf k []) (PartitionedInput.init startAt : InputState K P).parts[k]? :=
    fun k => .inl ⟨rfl, rfl, rfl⟩
  refine ⟨fun k => (hloaded k).stands, fun k => (hloaded k).builtFromLoad, ?_, nofun⟩
  rintro caps ⟨⟩
  exact ⟨rfl, hloaded⟩

variable {as : List (InputActivation K S)} {a : InputActivation K S} {s s' : InputState K P}
  {events new : List (K × PartEvent X S)}

/-- The loads of an activation. -/
theorem Inv.load {parts : TreeMap K (PartitionedPartState P)} {inbuf : TreeMap Nat (List (K × Nat))}
    {primaryParts : TreeSet K} (h : Inv source startAt as s events)
    (hlen : ∀ k, (Keyed.valuesOf k ((as ++ [a]).flatMap upserts)).length ≤ 1)
    (hended : (∃ b ∈ as, b.loadsFrontier.isEof) → a.loads = [])
    (hr : Runs.run (loadStep source thisWorker startAt a.now) s.parts (loadsOf a) =
      some (parts, new)) :
    Inv source startAt (as ++ [a])
      { s with parts, primariesInbuf := inbuf, primaryParts } (events ++ new) := by
  rw [List.flatMap_append, List.flatMap_singleton] at hlen
  cases hcaps : s.initCaps with
  | none =>
    obtain ⟨b, hb, heof⟩ := h.ended hcaps
    have hnil : loadsOf a = [] := by rw [loadsOf, hended ⟨b, hb, heof⟩, List.flatMap_nil]
    have hups : (as ++ [a]).flatMap upserts = as.flatMap upserts := by
      rw [List.flatMap_append, List.flatMap_singleton, upserts, hnil, List.filterMap_nil,
        List.append_nil]
    rw [hnil] at hr
    cases hr
    rw [List.append_nil]
    refine ⟨h.stands, fun k => ?_, nofun, fun _ => ?_⟩
    · rw [hups]
      exact h.built k
    · exact ⟨b, List.mem_append_left _ hb, heof⟩
  | some caps =>
    obtain ⟨rfl, hloaded⟩ := h.loading caps hcaps
    have hloaded : ∀ k, Loaded source startAt k
        (Keyed.valuesOf k ((as ++ [a]).flatMap upserts)) (Keyed.valuesOf k (events ++ new))
        parts[k]? := by
      intro k
      obtain ⟨hev, hparts⟩ := run_loadStep hr k
      have hk := hlen k
      rw [List.flatMap_append, List.flatMap_singleton]
      rw [Keyed.valuesOf_append] at hk ⊢
      rw [Keyed.valuesOf_append, hev, hparts]
      exact (hloaded k).append hk
    refine ⟨fun k => (hloaded k).stands, fun k => (hloaded k).builtFromLoad, ?_, nofun⟩
    rintro caps ⟨⟩
    exact ⟨rfl, hloaded⟩

/-- The end of the loads. -/
theorem Inv.initParts (h : Inv source startAt as s events)
    (hr : initParts source a.now a.loadsFrontier s = some (s', new)) (ha : a ∈ as) :
    Inv source startAt as s' (events ++ new) := by
  unfold PartitionedInput.initParts at hr
  split at hr
  · rename_i heof
    split at hr
    · cases hr
      rwa [List.append_nil]
    · rename_i down snap hcaps
      obtain ⟨hcap, hloaded⟩ := h.loading _ hcaps
      obtain ⟨hdown, hsnap⟩ := Prod.mk.inj hcap
      rw [hdown, hsnap, if_pos rfl] at hr
      obtain ⟨⟨parts, built⟩, hrun, hr⟩ := Option.bind_eq_some_iff.mp hr
      cases hr
      have hkey : ∀ k, Stands source k (Keyed.valuesOf k (events ++ new)) parts[k]? ∧
          BuiltFromLoad startAt (Keyed.valuesOf k (as.flatMap upserts))
            (Keyed.valuesOf k (events ++ new)) := by
        intro k
        rw [Keyed.valuesOf_append]
        rcases run_initStep hrun k with ⟨hnone, hev, hparts⟩ | ⟨hev, hparts⟩
        · rw [hev, hparts]
          rcases hloaded k with ⟨hups, ht, -⟩ | ⟨load, now, -, -, hsome⟩
          · rw [ht, hups]
            exact ⟨.new _ _ _, .inr ⟨a.now, rfl⟩⟩
          · rw [hnone] at hsome
            cases hsome
        · rw [hev, hparts, List.append_nil]
          exact ⟨h.stands k, h.built k⟩
      exact ⟨fun k => (hkey k).1, fun k => (hkey k).2, nofun, fun _ => ⟨a, ha, heof⟩⟩
  · cases hr
    rwa [List.append_nil]

/-- The polls of an activation. -/
theorem Inv.pollParts (h : Inv source startAt as s events)
    (hprobe : s.initCaps ≠ none → a.probe.LessThan startAt)
    (hr : pollParts source epochInterval a.now a.probe s = some (s', new)) :
    Inv source startAt as s' (events ++ new) := by
  have hcaps : s'.initCaps = s.initCaps := by
    obtain ⟨p, -, hr⟩ := Option.bind_eq_some_iff.mp hr
    cases hr
    rfl
  have hkey : ∀ k, Stands source k (Keyed.valuesOf k (events ++ new)) s'.parts[k]? ∧
      BuiltFromLoad startAt (Keyed.valuesOf k (as.flatMap upserts))
        (Keyed.valuesOf k (events ++ new)) := by
    intro k
    have hstands := h.stands k
    obtain ⟨hsome, hnone⟩ := pollParts_key hr k
    rw [Keyed.valuesOf_append]
    cases hp : s.parts[k]? with
    | none =>
      obtain ⟨hev, hparts⟩ := hnone hp
      rw [hev, hparts, List.append_nil]
      exact ⟨hp ▸ hstands, h.built k⟩
    | some p =>
      obtain ⟨polled, hpoll, hev, hparts⟩ := hsome p hp
      rw [hp] at hstands
      rw [hev, hparts]
      exact ⟨hstands.polled hpoll, (h.built k).append (builds_of_pollPart hpoll)⟩
  refine ⟨fun k => (hkey k).1, fun k => (hkey k).2, fun caps hc => ?_, fun hc => ?_⟩
  · rw [hcaps] at hc
    obtain ⟨rfl, hloaded⟩ := h.loading caps hc
    have hless : a.probe.LessThan startAt := hprobe (by rw [hc]; nofun)
    refine ⟨rfl, fun k => ?_⟩
    have hk := hloaded k
    obtain ⟨hsome, hnone⟩ := pollParts_key hr k
    rw [Keyed.valuesOf_append]
    cases hp : s.parts[k]? with
    | none =>
      obtain ⟨hev, hparts⟩ := hnone hp
      rw [hev, hparts, List.append_nil]
      rwa [hp] at hk
    | some p =>
      rw [hp] at hk
      obtain ⟨polled, hpoll, hev, hparts⟩ := hsome p hp
      obtain rfl : _ = polled := Option.some.inj ((hk.pollPart hless).symm.trans hpoll)
      rw [hev, hparts, List.append_nil]
      exact hk
  · exact h.ended (hcaps.symm.trans hc)

/-- **One activation.** -/
theorem Inv.activate (h : Inv source startAt as s events)
    (hlen : ∀ k, (Keyed.valuesOf k ((as ++ [a]).flatMap upserts)).length ≤ 1)
    (hended : (∃ b ∈ as, b.loadsFrontier.isEof) → a.loads = [])
    (hprobe : a.loadsFrontier.isEof = false → a.probe.LessThan startAt)
    (hr : activate source thisWorker startAt epochInterval s a = some (s', new)) :
    Inv source startAt (as ++ [a]) s' (events ++ new) := by
  obtain ⟨⟨parts, loaded⟩, hload, hr⟩ := Option.bind_eq_some_iff.mp hr
  obtain ⟨⟨s₁, inited⟩, hinit, hr⟩ := Option.bind_eq_some_iff.mp hr
  obtain ⟨⟨s₂, polled⟩, hpoll, hr⟩ := Option.bind_eq_some_iff.mp hr
  cases hr
  have h₁ := (h.load hlen hended hload).initParts hinit (List.mem_append_right _ List.mem_cons_self)
  have h₂ := h₁.pollParts ?_ hpoll
  · rw [← List.append_assoc, ← List.append_assoc]
    exact ⟨h₂.stands, h₂.built, h₂.loading, h₂.ended⟩
  · -- the initial capabilities are gone once the loads have ended
    intro hcaps
    refine hprobe ?_
    by_contra heof
    unfold PartitionedInput.initParts at hinit
    rw [if_pos (by simpa using heof)] at hinit
    split at hinit
    · rename_i hnone
      cases hinit
      exact hcaps hnone
    · split at hinit
      · obtain ⟨r, -, hinit⟩ := Option.bind_eq_some_iff.mp hinit
        cases hinit
        exact hcaps rfl
      · cases hinit

/-- **A run of the operator.** -/
theorem inv_of_run {events : List (K × PartEvent X S)} (has : Schedule startAt as)
    (hr : Runs.run (PartitionedInput.activate source thisWorker startAt epochInterval)
      (PartitionedInput.init startAt) as = some (s, events)) : Inv source startAt as s events := by
  refine Runs.run_prefixes (P := Inv source startAt) ?_ .init hr
  rintro pre a post s o s₁ o₁ rfl - h hs
  refine h.activate (fun k => ?_) ?_ ?_ hs
  · have hk := has.loads k
    rw [List.append_cons, List.flatMap_append, Keyed.valuesOf_append, List.length_append] at hk
    omega
  · rintro ⟨b, hb, heof⟩
    exact (List.pairwise_append.mp has.ended).2.2 b hb a List.mem_cons_self heof
  · exact has.probe a (List.mem_append_right _ List.mem_cons_self)

/-- The loop over the partitions polls a partition only when the dataflow has caught up with it. -/
theorem not_lessThan_of_pollParts
    (hr : pollParts source epochInterval a.now a.probe s = some (s', new)) {e : Nat}
    {sched : Option Int} {batchRes : BatchResult X} {k : K}
    (hev : (k, .nextBatch e sched batchRes) ∈ new) : ¬ a.probe.LessThan e := by
  have hev := Keyed.mem_valuesOf.mpr hev
  obtain ⟨hsome, hnone⟩ := pollParts_key hr k
  cases hp : s.parts[k]? with
  | none =>
    rw [(hnone hp).1] at hev
    cases hev
  | some p =>
    obtain ⟨polled, hpoll, hval, -⟩ := hsome p hp
    rw [hval] at hev
    rcases pollPart_cases hpoll with rfl | ⟨q, res, snaps, hprobe, -, hadv, -, hevents⟩
    · cases hev
    · rw [hevents] at hev
      rcases List.mem_cons.mp hev with hev | hev
      · cases hev
        exact hprobe
      · rcases advance_cases source epochInterval a.now res.isEof q with ⟨-, hq⟩ | ⟨q', hq, -⟩
        · obtain ⟨-, rfl⟩ := Prod.mk.inj (hq.symm.trans hadv)
          cases hev
        · obtain ⟨-, rfl⟩ := Prod.mk.inj (hq.symm.trans hadv)
          exact absurd (List.mem_singleton.mp hev) nofun

/-- The end of the loads only builds partitions. -/
theorem not_nextBatch_of_initParts
    (hr : PartitionedInput.initParts source a.now a.loadsFrontier s = some (s', new)) {e : Nat}
    {sched : Option Int} {batchRes : BatchResult X} {k : K} :
    (k, .nextBatch e sched batchRes) ∉ new := by
  intro hev
  unfold PartitionedInput.initParts at hr
  split at hr
  · split at hr
    · cases hr
      cases hev
    · split at hr
      · obtain ⟨⟨parts, built⟩, hrun, hr⟩ := Option.bind_eq_some_iff.mp hr
        cases hr
        have hev := Keyed.mem_valuesOf.mpr hev
        rcases run_initStep hrun k with ⟨-, hval, -⟩ | ⟨hval, -⟩
        · rw [hval] at hev
          exact absurd (List.mem_singleton.mp hev) nofun
        · rw [hval] at hev
          cases hev
      · cases hr
  · cases hr
    cases hev

/-- No partition is polled while the probe is behind its epoch. -/
theorem not_lessThan_of_activate
    (hr : PartitionedInput.activate source thisWorker startAt epochInterval s a = some (s', new))
    {e : Nat} {sched : Option Int} {batchRes : BatchResult X} {k : K}
    (hev : (k, .nextBatch e sched batchRes) ∈ new) : ¬ a.probe.LessThan e := by
  obtain ⟨⟨parts, loaded⟩, hload, hr⟩ := Option.bind_eq_some_iff.mp hr
  obtain ⟨⟨s₁, inited⟩, hinit, hr⟩ := Option.bind_eq_some_iff.mp hr
  obtain ⟨⟨s₂, polled⟩, hpoll, hr⟩ := Option.bind_eq_some_iff.mp hr
  cases hr
  rcases List.mem_append.mp hev with hev | hev
  · rcases List.mem_append.mp hev with hev | hev
    · -- the loads only build partitions
      have hev := Keyed.mem_valuesOf.mpr hev
      rw [(run_loadStep hload k).1] at hev
      obtain ⟨load, -, he⟩ := List.mem_map.mp hev
      cases he
    · exact absurd hev (not_nextBatch_of_initParts hinit)
  · exact not_lessThan_of_pollParts hpoll hev

end Run

end PartitionedInput

open PartitionedInput

/-- **Partitioned input snapshots match what was emitted**, whatever the partitions answer and
however the operator is activated: a partition is built at most once, from its load if it had one;
it is polled in the epoch it is in and never while the probe is behind that epoch; it leaves an
epoch with one snapshot, also at its end; and up to the epoch it is in, its latest snapshot before
an epoch reflects exactly what it emitted before. -/
theorem inputSnapshots_match {K X S P : Type} [LinearOrder K]
    (source : FixedPartitionedSource K X S P) (thisWorker startAt : Nat) (epochInterval : Int)
    {as : List (InputActivation K S)} (has : Schedule startAt as) {s : InputState K P}
    {events : List (K × PartEvent X S)}
    (hr : Runs.run (activate source thisWorker startAt epochInterval) (init startAt) as =
      some (s, events)) :
    (∀ k, SnapshotsMatch source startAt k (Keyed.valuesOf k (as.flatMap upserts))
        (Keyed.valuesOf k events) s.parts[k]?) ∧
      Runs.Along (activate source thisWorker startAt epochInterval)
        (fun s a => ∀ s' new, activate source thisWorker startAt epochInterval s a =
            some (s', new) → ∀ k e sched batchRes, (k, .nextBatch e sched batchRes) ∈ new →
              ¬ a.probe.LessThan e)
        (init startAt) as := by
  have hinv := inv_of_run has hr
  refine ⟨fun k => snapshotsMatch (hinv.stands k) (hinv.built k), Runs.along_of_run ?_ hr⟩
  intro s a s₁ o₁ hs s' new hs' k e sched batchRes hev
  exact not_lessThan_of_activate hs' hev

section Counter

/-- A partition that counts up to three, one item a batch. -/
def counter : FixedPartitionedSource Nat Nat Nat Nat where
  buildPart _ _ resumeState := resumeState.getD 0
  nextBatch part _ := if part < 3 then (part + 1, .batch [part]) else (part, .eof)
  nextAwake _ := none
  snapshot part := part

/-- Partition 7 is assigned and there is nothing to load; epoch 1 is left after ten nanoseconds. -/
def counterActivations : List (InputActivation Nat Nat) :=
  [{ now := 0, loads := [], primaries := [(0, [(7, 0)])], loadsFrontier := none,
      primariesFrontier := none, probe := some 1 },
    { now := 10, loads := [], primaries := [], loadsFrontier := none,
      primariesFrontier := none, probe := some 1 },
    { now := 11, loads := [], primaries := [], loadsFrontier := none,
      primariesFrontier := none, probe := some 2 }]

def counterEvents : List (Nat × PartEvent Nat Nat) :=
  [(7, .built 1 0 none), (7, .nextBatch 1 none (.batch [0])), (7, .nextBatch 1 none (.batch [1])),
    (7, .snap 1 2), (7, .nextBatch 2 none (.batch [2]))]

theorem counter_schedule : Schedule 1 counterActivations where
  loads _ := by simp [counterActivations, upserts, loadsOf]
  probe := by simp [counterActivations, Frontier.isEof]
  ended := by simp [counterActivations]

theorem counter_run : ∃ s, Runs.run (activate counter 0 1 10) (init 1) counterActivations =
    some (s, counterEvents) := by
  have h : (Runs.run (activate counter 0 1 10) (init 1) counterActivations).map Prod.snd =
      some counterEvents := by decide +kernel
  obtain ⟨⟨s, events⟩, hr, rfl⟩ := Option.map_eq_some_iff.mp h
  exact ⟨s, hr⟩

/-- In the third activation the partition emits an item in epoch 2, which it has not left: no
snapshot before epoch 3 reflects that item. -/
theorem openEpoch_not_reflected : ∃ s, Runs.run (activate counter 0 1 10) (init 1)
      counterActivations = some (s, counterEvents) ∧ Schedule 1 counterActivations ∧
    ¬ ∀ r, Reflects counter 7 (Keyed.valuesOf 7 counterEvents) r := by
  obtain ⟨s, hr⟩ := counter_run
  refine ⟨s, hr, counter_schedule, fun h => ?_⟩
  obtain ⟨-, hsnap⟩ := (h 3).1 (1, 0, none) rfl (1, 2) rfl
  exact absurd hsnap (by decide)

theorem inputSnapshots_match_counter : ∃ s, Runs.run (activate counter 0 1 10) (init 1)
      counterActivations = some (s, counterEvents) ∧
    SnapshotsMatch counter 1 7 [] (Keyed.valuesOf 7 counterEvents) s.parts[7]? := by
  obtain ⟨s, hr⟩ := counter_run
  exact ⟨s, hr, (inputSnapshots_match counter 0 1 10 counter_schedule hr).1 7⟩

end Counter

end Bytewax
