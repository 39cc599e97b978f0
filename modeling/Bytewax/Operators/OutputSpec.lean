import Bytewax.Lib.Keyed
import Bytewax.Operators.PartitionedOutput

/-!
# Bytewax.Operators.OutputSpec — what the loops of a partitioned output do

One lemma for each loop of the operator: what it calls in its epoch, and what it leaves of the
partitions.  A partition is always what the calls so far make of it (`partFrom`).
-/

namespace Bytewax

open Std (TreeMap TreeSet)

namespace SinkCall

variable {K V S : Type}

/-- The values that the call writes to a partition. -/
def batchFor [DecidableEq K] (k : K) : SinkCall K V S → List V
  | .write part batch => if part = k then batch else []
  | .built .. | .snap .. | .removed .. | .clock => []

/-- The calls that an open epoch makes: writes, and the building of what is first written to. -/
def isEager : SinkCall K V S → Bool
  | .write .. | .built _ none => true
  | .built _ (some _) | .snap .. | .removed .. | .clock => false

/-- The calls that neither write nor snapshot. -/
def isLoad : SinkCall K V S → Bool
  | .built _ (some _) | .removed .. => true
  | .built _ none | .write .. | .snap .. | .clock => false

/-- The calls that leave the partitions as they are. -/
def isQuiet : SinkCall K V S → Bool
  | .snap .. | .clock => true
  | .built .. | .write .. | .removed .. => false

end SinkCall

namespace PartitionedOutput

variable {K V S P : Type} [LinearOrder K]

/-- What a call makes of a partition. -/
def stepPart (sink : FixedPartitionedSink K V S P) (k : K) (part : Option P) :
    SinkCall K V S → Option P
  | .built k' resumeState => if k' = k then some (sink.buildPart k resumeState) else part
  | .write k' batch => if k' = k then part.map (sink.writeBatch · batch) else part
  | .removed k' => if k' = k then none else part
  | .snap .. | .clock => part

/-- What the calls make of a partition. -/
def partFrom (sink : FixedPartitionedSink K V S P) (k : K) (part : Option P)
    (events : List (SinkEvent K V S)) : Option P :=
  events.foldl (fun part event => stepPart sink k part event.2) part

/-- The values written to a partition in an epoch, in order. -/
def writtenAt (e : Nat) (k : K) (events : List (SinkEvent K V S)) : List V :=
  events.flatMap fun event => if event.1 = e then event.2.batchFor k else []

variable {sink : FixedPartitionedSink K V S P} {thisWorker e : Nat} {k : K}
  {o o' : List (SinkEvent K V S)}

@[simp] theorem partFrom_nil (part : Option P) : partFrom sink k part [] = part := rfl

@[simp] theorem partFrom_append (part : Option P) :
    partFrom sink k part (o ++ o') = partFrom sink k (partFrom sink k part o) o' :=
  List.foldl_append

@[simp] theorem partFrom_cons (part : Option P) (event : SinkEvent K V S) :
    partFrom sink k part (event :: o) = partFrom sink k (stepPart sink k part event.2) o := rfl

@[simp] theorem writtenAt_append :
    writtenAt e k (o ++ o') = writtenAt e k o ++ writtenAt e k o' := List.flatMap_append

theorem partFrom_of_quiet (part : Option P) (h : ∀ event ∈ o, event.2.isQuiet) :
    partFrom sink k part o = part := by
  induction o generalizing part with
  | nil => rfl
  | cons event o ih =>
    obtain ⟨hevent, ho⟩ := List.forall_mem_cons.mp h
    obtain ⟨epoch, call⟩ := event
    rw [partFrom_cons]
    cases call with
    | snap part' state => exact ih _ ho
    | clock => exact ih _ ho
    | built part' resumeState => cases hevent
    | write part' batch => cases hevent
    | removed part' => cases hevent

theorem writtenAt_eq_nil (h : ∀ k batch, (e, .write k batch) ∉ o) : writtenAt e k o = [] := by
  refine List.flatMap_eq_nil_iff.mpr fun event hevent => ?_
  obtain ⟨epoch, call⟩ := event
  split
  · rename_i he
    subst he
    cases call with
    | write part batch => exact absurd hevent (h part batch)
    | built part resumeState => rfl
    | snap part state => rfl
    | removed part => rfl
    | clock => rfl
  · rfl

theorem writtenAt_of_ne {e' : Nat} (h : ∀ event ∈ o, event.1 = e) (hne : e' ≠ e) :
    writtenAt e' k o = [] := by
  refine List.flatMap_eq_nil_iff.mpr fun event hevent => ?_
  rw [if_neg]
  rw [h event hevent]
  exact hne.symm

/-- A map holds one value for a key of it. -/
theorem valuesOf_toList {α : Type} (m : TreeMap K α) (k : K) :
    Keyed.valuesOf k m.toList = m[k]?.toList := by
  have hmem : ∀ a, a ∈ Keyed.valuesOf k m.toList ↔ m[k]? = some a := fun a => by
    rw [Keyed.mem_valuesOf, TreeMap.mem_toList_iff_getElem?_eq_some]
  have hpair : m.toList.Pairwise fun x y => x.1 ≠ y.1 :=
    TreeMap.distinct_keys_toList.imp fun hne he => hne (by simp [he])
  have hlen : (Keyed.valuesOf k m.toList).length ≤ 1 := by
    rw [Keyed.valuesOf, List.length_map, Keyed.length_filter_key k hpair]
    split
    · exact Nat.le_refl 1
    · exact Nat.zero_le 1
  rcases hl : Keyed.valuesOf k m.toList with _ | ⟨a, _ | ⟨a', l⟩⟩
  · cases hk : m[k]? with
    | none => rfl
    | some a =>
      have ha := (hmem a).mpr hk
      rw [hl] at ha
      cases ha
  · rw [(hmem a).mp (hl ▸ List.mem_singleton_self a)]
    rfl
  · rw [hl] at hlen
    simp at hlen

/-! ### Writing -/

/-- What the writing of an epoch does: eager calls of that epoch, which write the given items, wake
the partitions written to, and leave the partitions as the calls make them. -/
structure Writes (sink : FixedPartitionedSink K V S P) (e : Nat) (entries : List (K × List (K × V)))
    (s s' : OutputParts K P) (o : List (SinkEvent K V S)) : Prop where
  eager : ∀ event ∈ o, event.1 = e ∧ event.2.isEager
  values : ∀ k, writtenAt e k o = (Keyed.valuesOf k entries).flatMap (List.map Prod.snd)
  awoken : ∀ k, k ∈ s'.awoken ↔ k ∈ s.awoken ∨ ∃ batch, (e, .write k batch) ∈ o
  holds : ∀ k, k ∈ s'.parts ↔ k ∈ s.parts ∨ ∃ batch, (e, .write k batch) ∈ o
  parts : ∀ k, partFrom sink k s.parts[k]? o = s'.parts[k]?

theorem writeStep_spec (sink : FixedPartitionedSink K V S P) (e : Nat) (s : OutputParts K P)
    (entry : K × List (K × V)) :
    ∃ s' o, writeStep sink e s entry = some (s', o) ∧ Writes sink e [entry] s s' o := by
  obtain ⟨partKey, items⟩ := entry
  cases hp : s.parts[partKey]? with
  | some part =>
    refine ⟨_, _, by rw [writeStep, hp], ?_, ?_, ?_, ?_, ?_⟩
    · simp [SinkCall.isEager]
    · intro k
      by_cases hk : partKey = k
      · simp [writtenAt, SinkCall.batchFor, Keyed.valuesOf_cons, hk]
      · simp [writtenAt, SinkCall.batchFor, Keyed.valuesOf_cons, hk]
    · intro k
      rw [TreeSet.mem_insert, Std.LawfulEqCmp.compare_eq_iff_eq]
      simp [eq_comm, or_comm]
    · intro k
      rw [TreeMap.mem_insert, Std.LawfulEqCmp.compare_eq_iff_eq]
      simp [eq_comm, or_comm]
    · intro k
      by_cases hk : partKey = k
      · subst hk
        simp [stepPart, hp]
      · simp [stepPart, hk, TreeMap.getElem?_insert]
  | none =>
    refine ⟨_, _, by rw [writeStep, hp], ?_, ?_, ?_, ?_, ?_⟩
    · simp [SinkCall.isEager]
    · intro k
      by_cases hk : partKey = k
      · simp [writtenAt, SinkCall.batchFor, Keyed.valuesOf_cons, hk]
      · simp [writtenAt, SinkCall.batchFor, Keyed.valuesOf_cons, hk]
    · intro k
      rw [TreeSet.mem_insert, Std.LawfulEqCmp.compare_eq_iff_eq]
      simp [eq_comm, or_comm]
    · intro k
      rw [TreeMap.mem_insert, Std.LawfulEqCmp.compare_eq_iff_eq]
      simp [eq_comm, or_comm]
    · intro k
      by_cases hk : partKey = k
      · subst hk
        simp [stepPart, hp]
      · simp [stepPart, hk, TreeMap.getElem?_insert]

theorem Writes.append {entries entries' : List (K × List (K × V))} {s s₁ s₂ : OutputParts K P}
    (h : Writes sink e entries s s₁ o) (h' : Writes sink e entries' s₁ s₂ o') :
    Writes sink e (entries ++ entries') s s₂ (o ++ o') where
  eager event hevent := (List.mem_append.mp hevent).elim (h.eager event) (h'.eager event)
  values k := by
    rw [writtenAt_append, h.values, h'.values, Keyed.valuesOf_append, List.flatMap_append]
  awoken k := by
    rw [h'.awoken, h.awoken]
    simp only [List.mem_append, exists_or, or_assoc]
  holds k := by
    rw [h'.holds, h.holds]
    simp only [List.mem_append, exists_or, or_assoc]
  parts k := by rw [partFrom_append, h.parts, h'.parts]

/-- **The loop over the partitions with items.** -/
theorem run_writeStep (sink : FixedPartitionedSink K V S P) (e : Nat) (s : OutputParts K P)
    (entries : List (K × List (K × V))) :
    ∃ s' o, Runs.run (writeStep sink e) s entries = some (s', o) ∧
      Writes sink e entries s s' o := by
  induction entries generalizing s with
  | nil => exact ⟨s, [], rfl, by simp, fun _ => rfl, by simp, by simp, fun _ => rfl⟩
  | cons entry entries ih =>
    obtain ⟨s₁, o₁, hs, h₁⟩ := writeStep_spec sink e s entry
    obtain ⟨s₂, o₂, hr, h₂⟩ := ih s₁
    exact ⟨s₂, o₁ ++ o₂, Runs.run_cons hs hr, h₁.append h₂⟩

/-! ### Snapshots and loads -/

/-- **The loop over the awoken partitions.** -/
theorem run_snapStep (sink : FixedPartitionedSink K V S P) {parts : TreeMap K P} {keys : List K}
    (hkeys : ∀ k ∈ keys, k ∈ parts) :
    ∃ o : List (SinkEvent K V S), Runs.run (snapStep sink e) parts keys = some (parts, o) ∧
      (∀ event ∈ o, ∃ k ∈ keys, ∃ part, parts[k]? = some part ∧
        event = (e, .snap k (sink.snapshot part))) ∧
      (∀ k ∈ keys, ∃ state, (e, .snap k state) ∈ o) ∧
      (keys.Nodup → o.Pairwise fun x y => ∀ k state state',
        x.2 = .snap k state → y.2 ≠ .snap k state') := by
  induction keys with
  | nil => exact ⟨[], rfl, by simp, by simp, fun _ => .nil⟩
  | cons k keys ih =>
    obtain ⟨hk, hkeys⟩ := List.forall_mem_cons.mp hkeys
    obtain ⟨part, hpart⟩ := Option.isSome_iff_exists.mp (TreeMap.isSome_getElem?_iff_mem.mpr hk)
    obtain ⟨o, hr, hev, hall, hpair⟩ := ih hkeys
    have hs : snapStep sink e parts k =
        some (parts, [((e, .snap k (sink.snapshot part)) : SinkEvent K V S)]) := by
      simp [snapStep, hpart]
    refine ⟨_, Runs.run_cons hs hr, ?_, ?_, ?_⟩
    · rintro event hevent
      rcases List.mem_cons.mp hevent with rfl | hevent
      · exact ⟨k, List.mem_cons_self, part, hpart, rfl⟩
      · obtain ⟨k', hk', part', hpart', he⟩ := hev event hevent
        exact ⟨k', List.mem_cons_of_mem _ hk', part', hpart', he⟩
    · intro k' hk'
      rcases List.mem_cons.mp hk' with rfl | hk'
      · exact ⟨_, List.mem_cons_self⟩
      · obtain ⟨state, hstate⟩ := hall k' hk'
        exact ⟨state, List.mem_cons_of_mem _ hstate⟩
    · intro hnd
      obtain ⟨hnot, hnd⟩ := List.nodup_cons.mp hnd
      refine List.pairwise_cons.mpr ⟨fun y hy k' state state' hx hy' => ?_, hpair hnd⟩
      obtain ⟨k'', hk'', part'', -, rfl⟩ := hev y hy
      cases hx
      cases hy'
      exact hnot hk''

/-- **The loop over the loads of an epoch.** -/
theorem run_loadStep (sink : FixedPartitionedSink K V S P) (thisWorker e : Nat)
    (parts : TreeMap K P) (loads : List (Nat × K × StateChange S)) :
    ∃ parts' o, Runs.run (loadStep sink thisWorker e) parts loads = some (parts', o) ∧
      (∀ event ∈ o, event.1 = e ∧ event.2.isLoad) ∧
      (∀ k, partFrom sink k parts[k]? o = parts'[k]?) ∧
      ∀ k state, (thisWorker, k, .upsert state) ∈ loads → (e, .built k (some state)) ∈ o := by
  induction loads generalizing parts with
  | nil => exact ⟨parts, [], rfl, by simp, fun _ => rfl, by simp⟩
  | cons load loads ih =>
    have hstep : ∃ parts₁ call, loadStep sink thisWorker e parts load = some (parts₁, [(e, call)]) ∧
        call.isLoad ∧ (∀ k, stepPart sink k parts[k]? call = parts₁[k]?) ∧
        ∀ k state, load = (thisWorker, k, .upsert state) → call = .built k (some state) := by
      obtain ⟨worker, partKey, change⟩ := load
      by_cases hw : worker = thisWorker
      · cases change with
        | upsert state =>
          have hs : loadStep sink thisWorker e parts (worker, partKey, .upsert state) =
              some (parts.insert partKey (sink.buildPart partKey (some state)),
                [(e, .built partKey (some state))]) := by
            simp only [loadStep, hw, if_true]
          refine ⟨_, _, hs, rfl, fun k => ?_, ?_⟩
          · rw [stepPart, TreeMap.getElem?_insert]
            by_cases hk : partKey = k <;> simp [hk]
          · rintro k state' ⟨⟩
            rfl
        | discard =>
          have hs : loadStep sink thisWorker e parts (worker, partKey, .discard) =
              some (parts.erase partKey, [(e, .removed partKey)]) := by
            simp only [loadStep, hw, if_true]
          refine ⟨_, _, hs, rfl, fun k => ?_, nofun⟩
          rw [stepPart, TreeMap.getElem?_erase]
          by_cases hk : partKey = k <;> simp [hk]
      · have hs : loadStep sink thisWorker e parts (worker, partKey, change) =
            some (parts.erase partKey, [(e, .removed partKey)]) := by
          simp only [loadStep, hw, if_false]
        refine ⟨_, _, hs, rfl, fun k => ?_, ?_⟩
        · rw [stepPart, TreeMap.getElem?_erase]
          by_cases hk : partKey = k <;> simp [hk]
        · rintro k state ⟨⟩
          exact absurd rfl hw
    obtain ⟨parts₁, call, hs, hload, hpart, hup⟩ := hstep
    obtain ⟨parts₂, o, hr, hev, hparts, hall⟩ := ih parts₁
    refine ⟨parts₂, _, Runs.run_cons hs hr, ?_, ?_, ?_⟩
    · exact List.forall_mem_cons.mpr ⟨⟨rfl, hload⟩, hev⟩
    · intro k
      rw [List.singleton_append, partFrom_cons, hpart, hparts]
    · intro k state hmem
      rcases List.mem_cons.mp hmem with he | hmem
      · rw [hup k state he.symm]
        exact List.mem_cons_self
      · exact List.mem_cons_of_mem _ (hall k state hmem)

/-- What the closing of an epoch does: calls of that epoch, none of them a write, with one snapshot
for each awoken partition, taken before anything is loaded. -/
structure Closes (sink : FixedPartitionedSink K V S P) (thisWorker e : Nat)
    (loads : List (Nat × K × StateChange S)) (s s' : OutputParts K P)
    (o : List (SinkEvent K V S)) : Prop where
  epoch : ∀ event ∈ o, event.1 = e
  noWrite : ∀ e k batch, (e, .write k batch) ∉ o
  clock : (e, .clock) ∈ o
  snaps : ∀ k, (∃ state, (e, .snap k state) ∈ o) ↔ k ∈ s.awoken
  once : o.Pairwise fun x y => ∀ k state state', x.2 = .snap k state → y.2 ≠ .snap k state'
  states : ∀ pre e k state post, o = pre ++ (e, .snap k state) :: post →
    (partFrom sink k s.parts[k]? pre).map sink.snapshot = some state
  parts : ∀ k, partFrom sink k s.parts[k]? o = s'.parts[k]?
  awoken : ∀ k, k ∉ s'.awoken
  loaded : ∀ k state, (thisWorker, k, .upsert state) ∈ loads → (e, .built k (some state)) ∈ o

theorem closeLogic_spec (sink : FixedPartitionedSink K V S P) (thisWorker e : Nat)
    (bufs : OutputBufs K V S) {s : OutputParts K P} (hbacked : ∀ k ∈ s.awoken, k ∈ s.parts) :
    ∃ s' o, closeLogic sink thisWorker e (bufs, s) =
        some (({ bufs with loadsInbuf := bufs.loadsInbuf.erase e }, s'), o) ∧
      Closes sink thisWorker e (bufs.loadsInbuf.getD e []) s s' o := by
  obtain ⟨snaps, hsnap, hsnaps, hawoken, hpair⟩ := run_snapStep sink (e := e)
    fun k hk => hbacked k (TreeSet.mem_toList.mp hk)
  obtain ⟨parts, loaded, hload, hloads, hparts, hups⟩ :=
    run_loadStep sink thisWorker e s.parts (bufs.loadsInbuf.getD e [])
  have hnd : s.awoken.toList.Nodup :=
    TreeSet.ordered_toList.imp fun hlt he => by simp [he] at hlt
  have hquiet : ∀ event ∈ (e, .clock) :: snaps, event.2.isQuiet := by
    refine List.forall_mem_cons.mpr ⟨rfl, fun event hevent => ?_⟩
    obtain ⟨k, -, part, -, rfl⟩ := hsnaps event hevent
    rfl
  -- what is loaded is not a snapshot, and no call of the close is a write
  have hload' : ∀ event ∈ loaded, ∀ k state, event.2 ≠ .snap k state := by
    intro event hevent k state he
    have hisLoad := (hloads event hevent).2
    rw [he] at hisLoad
    cases hisLoad
  refine ⟨⟨parts, ∅⟩, (e, .clock) :: snaps ++ loaded, by simp [closeLogic, hsnap, hload], ?_⟩
  refine
    { epoch := ?_
      noWrite := ?_
      clock := by simp
      snaps := ?_
      once := ?_
      states := ?_
      parts := ?_
      awoken := by simp
      loaded := fun k state hmem => List.mem_append_right _ (hups k state hmem) }
  · intro event hevent
    rcases List.mem_append.mp hevent with hevent | hevent
    · rcases List.mem_cons.mp hevent with rfl | hevent
      · rfl
      · obtain ⟨k, -, part, -, rfl⟩ := hsnaps event hevent
        rfl
    · exact (hloads event hevent).1
  · intro e' k batch hmem
    rcases List.mem_append.mp hmem with hmem | hmem
    · exact absurd (hquiet _ hmem) nofun
    · exact absurd (hloads _ hmem).2 nofun
  · intro k
    constructor
    · rintro ⟨state, hmem⟩
      rcases List.mem_append.mp hmem with hmem | hmem
      · obtain ⟨k', hk', part, -, he⟩ := hsnaps _ ((List.mem_cons.mp hmem).resolve_left nofun)
        cases he
        exact TreeSet.mem_toList.mp hk'
      · exact absurd rfl (hload' _ hmem k state)
    · intro hk
      obtain ⟨state, hstate⟩ := hawoken k (TreeSet.mem_toList.mpr hk)
      exact ⟨state, by simp [hstate]⟩
  · rw [List.cons_append]
    refine List.pairwise_cons.mpr ⟨fun y _ k state state' hx => absurd hx nofun, ?_⟩
    refine List.pairwise_append.mpr ⟨hpair hnd, ?_, ?_⟩
    · exact List.pairwise_of_forall_mem_list fun x hx y _ k state _ he =>
        absurd he (hload' x hx k state)
    · exact fun x _ y hy k _ state' _ => hload' y hy k state'
  · intro pre e' k state post he
    rcases Runs.split_append he with ⟨pre', -, hpost⟩ | ⟨post', -, hpre⟩
    · exact absurd rfl (hload' (e', .snap k state) (by simp [hpost]) k state)
    · have hq : ∀ event ∈ pre, event.2.isQuiet := fun event hevent =>
        hquiet event (by rw [hpre]; exact List.mem_append_left _ hevent)
      rw [partFrom_of_quiet _ hq]
      have hmem : (e', .snap k state) ∈ (e, .clock) :: snaps := by simp [hpre]
      obtain ⟨k', -, part, hpart, he'⟩ := hsnaps _ ((List.mem_cons.mp hmem).resolve_left nofun)
      cases he'
      rw [hpart]
      rfl
  · intro k
    rw [partFrom_append, partFrom_of_quiet _ hquiet]
    exact hparts k

/-! ### Arrivals -/

/-- The values buffered for a partition in an epoch. -/
def buffered (inbuf : TreeMap Nat (TreeMap K (List (K × V)))) (e : Nat) (k : K) : List V :=
  ((inbuf.getD e ∅).getD k []).map Prod.snd

/-- The values that batches of routed items bring for a partition in an epoch. -/
def valuesAt (e : Nat) (k : K) (items : List (Nat × List (Nat × K × K × V))) : List V :=
  items.flatMap fun incoming =>
    if incoming.1 = e then
      incoming.2.filterMap fun item => if item.2.1 = k then some item.2.2.2 else none
    else
      []

/-- The loads that batches bring in an epoch. -/
def loadsAt (e : Nat) (loads : List (Nat × List (Nat × K × StateChange S))) :
    List (Nat × K × StateChange S) :=
  loads.flatMap fun incoming => if incoming.1 = e then incoming.2 else []

theorem foldlM_pushItem (epoch : Nat) {items : List (Nat × K × K × V)}
    (hworker : ∀ item ∈ items, item.1 = thisWorker)
    (inbuf : TreeMap Nat (TreeMap K (List (K × V)))) :
    ∃ inbuf', items.foldlM (pushItem thisWorker epoch) inbuf = some inbuf' ∧
      (∀ e k, buffered inbuf' e k = buffered inbuf e k ++ if epoch = e then
        items.filterMap (fun item => if item.2.1 = k then some item.2.2.2 else none) else []) ∧
      ∀ e ∈ inbuf', e ∈ inbuf ∨ e = epoch := by
  induction items generalizing inbuf with
  | nil => exact ⟨inbuf, rfl, by simp, fun e he => .inl he⟩
  | cons item items ih =>
    obtain ⟨hw, hrest⟩ := List.forall_mem_cons.mp hworker
    obtain ⟨worker, part, key, value⟩ := item
    obtain ⟨inbuf', hr, hbuf, hmem⟩ := ih hrest (inbuf.insert epoch ((inbuf.getD epoch ∅).insert
      part ((inbuf.getD epoch ∅).getD part [] ++ [(key, value)])))
    refine ⟨inbuf', ?_, fun e k => ?_, fun e he => ?_⟩
    · rw [List.foldlM_cons, pushItem, if_pos hw]
      exact hr
    · rw [hbuf]
      by_cases he : epoch = e
      · subst he
        by_cases hk : part = k
        · subst hk
          simp [buffered]
        · simp [buffered, hk, TreeMap.getD_insert]
      · simp [buffered, he, TreeMap.getD_insert]
    · rcases hmem e he with he | rfl
      · rw [TreeMap.mem_insert, Std.LawfulEqCmp.compare_eq_iff_eq] at he
        exact he.symm.imp_right Eq.symm
      · exact .inr rfl

/-- **The items of an activation arrive.** -/
theorem foldlM_receiveItems {items : List (Nat × List (Nat × K × K × V))}
    (hworker : ∀ incoming ∈ items, ∀ item ∈ incoming.2, item.1 = thisWorker)
    {s : OutputState K V S P} (hn : items = [] ∨ s.ncater.capsState.isSome) :
    ∃ s', items.foldlM (receiveItems thisWorker) s = some s' ∧
      s'.bufs.loadsInbuf = s.bufs.loadsInbuf ∧ s'.ncater.capsState = s.ncater.capsState ∧
      (∀ e k, buffered s'.bufs.itemsInbuf e k =
        buffered s.bufs.itemsInbuf e k ++ valuesAt e k items) ∧
      (∀ e ∈ s'.bufs.itemsInbuf, e ∈ s.bufs.itemsInbuf ∨ e ∈ items.map Prod.fst) ∧
      ∀ e, e ∈ s'.ncater.queue ↔ e ∈ s.ncater.queue ∨ e ∈ items.map Prod.fst := by
  induction items generalizing s with
  | nil => exact ⟨s, rfl, rfl, rfl, by simp [valuesAt], fun e he => .inl he, by simp⟩
  | cons incoming items ih =>
    obtain ⟨hw, hrest⟩ := List.forall_mem_cons.mp hworker
    have hn : s.ncater.capsState.isSome := hn.resolve_left (List.cons_ne_nil _ _)
    obtain ⟨inbuf, hpush, hbuf, hmem⟩ := foldlM_pushItem incoming.1 hw s.bufs.itemsInbuf
    have hs : receiveItems thisWorker s incoming = some ⟨{ s.bufs with itemsInbuf := inbuf },
        { s.ncater with queue := s.ncater.queue.insert incoming.1 }⟩ := by
      simp [receiveItems, hpush, EagerNotificator.notifyAt, hn]
    obtain ⟨s', hr, hloads, hcaps, hbuf', hmem', hqueue⟩ := ih hrest
      (s := ⟨{ s.bufs with itemsInbuf := inbuf },
        { s.ncater with queue := s.ncater.queue.insert incoming.1 }⟩) (.inr hn)
    refine ⟨s', ?_, hloads, hcaps, fun e k => ?_, fun e he => ?_, fun e => ?_⟩
    · rw [List.foldlM_cons, hs]
      exact hr
    · rw [hbuf', hbuf, List.append_assoc]
      rfl
    · rw [List.map_cons, List.mem_cons]
      rcases hmem' e he with he | he
      · exact (hmem e he).imp_right .inl
      · exact .inr (.inr he)
    · rw [hqueue, TreeSet.mem_insert, Std.LawfulEqCmp.compare_eq_iff_eq, List.map_cons,
        List.mem_cons, eq_comm, or_comm (a := _ = _), or_assoc]

/-- **The loads of an activation arrive.** -/
theorem foldlM_receiveLoads (loads : List (Nat × List (Nat × K × StateChange S)))
    {s : OutputState K V S P} (hn : loads = [] ∨ s.ncater.capsState.isSome) :
    ∃ s', loads.foldlM receiveLoads s = some s' ∧
      s'.bufs.itemsInbuf = s.bufs.itemsInbuf ∧ s'.ncater.capsState = s.ncater.capsState ∧
      (∀ e, s'.bufs.loadsInbuf.getD e [] = s.bufs.loadsInbuf.getD e [] ++ loadsAt e loads) ∧
      (∀ e ∈ s'.bufs.loadsInbuf, e ∈ s.bufs.loadsInbuf ∨ e ∈ loads.map Prod.fst) ∧
      ∀ e, e ∈ s'.ncater.queue ↔ e ∈ s.ncater.queue ∨ e ∈ loads.map Prod.fst := by
  induction loads generalizing s with
  | nil => exact ⟨s, rfl, rfl, rfl, by simp [loadsAt], fun e he => .inl he, by simp⟩
  | cons incoming loads ih =>
    have hn : s.ncater.capsState.isSome := hn.resolve_left (List.cons_ne_nil _ _)
    obtain ⟨loadsInbuf, hins⟩ : ∃ loadsInbuf, loadsInbuf = s.bufs.loadsInbuf.insert incoming.1
      (s.bufs.loadsInbuf.getD incoming.1 [] ++ incoming.2) := ⟨_, rfl⟩
    have hs : receiveLoads s incoming = some ⟨{ s.bufs with loadsInbuf },
        { s.ncater with queue := s.ncater.queue.insert incoming.1 }⟩ := by
      simp [receiveLoads, EagerNotificator.notifyAt, hn, Unary.extend, hins]
    obtain ⟨s', hr, hitems, hcaps, hbuf', hmem', hqueue⟩ := ih
      (s := ⟨{ s.bufs with loadsInbuf },
        { s.ncater with queue := s.ncater.queue.insert incoming.1 }⟩) (.inr hn)
    refine ⟨s', ?_, hitems, hcaps, fun e => ?_, fun e he => ?_, fun e => ?_⟩
    · rw [List.foldlM_cons, hs]
      exact hr
    · rw [hbuf', hins]
      by_cases he : incoming.1 = e
      · subst he
        simp [loadsAt]
      · simp [loadsAt, he, TreeMap.getD_insert]
    · rw [List.map_cons, List.mem_cons]
      rcases hmem' e he with he | he
      · rw [hins, TreeMap.mem_insert, Std.LawfulEqCmp.compare_eq_iff_eq] at he
        exact he.elim (fun he => .inr (.inl he.symm)) .inl
      · exact .inr (.inr he)
    · rw [hqueue, TreeSet.mem_insert, Std.LawfulEqCmp.compare_eq_iff_eq, List.map_cons,
        List.mem_cons, eq_comm, or_comm (a := _ = _), or_assoc]

end PartitionedOutput
end Bytewax
