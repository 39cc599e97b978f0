import Bytewax.Lib.Reduce
import Bytewax.Operators.BuiltinLogics
import Bytewax.Operators.UnaryTrace
import Mathlib.Data.List.MinMax

/-!
# Bytewax.Operators.ReduceFinal — `reduce_final` and what is made of it

The values of a key are reduced twice: within each batch by `pre_reducer`, and over the batches by
`fold_final`, whose accumulator is `None` until the first value.  For an associative reducer the
batches make no difference.  The accumulator is emitted by each `on_eof` call for the key, and each
call starts the key afresh, so that the key's values are cut into as many pieces as there are calls
(`Pieces`); there is one call unless epochs with values of the key are outstanding when the input
ends (`EndsOnce`).
-/

namespace Bytewax

open Std (TreeMap TreeSet)

namespace ReduceFinal

variable {K V : Type}

section Model

variable (reducer : V → V → V)

/-- `pre_reducer`, the mapper of `flat_map_batch`. -/
def preReducer [DecidableEq K] (mixedBatch : List (K × V)) : List (K × V) :=
  (mixedBatch.foldl (fun (states : Dict K V) p =>
    match states.get? p.1 with
    | none => states.set p.1 p.2
    | some s => states.set p.1 (reducer s p.2)) .empty).entries

/-- `shim_folder`. -/
def shimFolder : Py V → V → Py V
  | none, v => some v
  | some s, v => some (reducer s v)

/-- The stateful step of `reduce_final`. -/
def reduceFinal : UnaryLogic V (Py V) (Py V) (Py V) := foldFinal none (shimFolder reducer)

end Model

/-- `partial(max, key=by)` of two values: the first one, unless the second one is greater. -/
def maxReducer {β : Type} [LT β] [DecidableLT β] (by' : V → β) (s v : V) : V :=
  if by' s < by' v then v else s

/-- `partial(min, key=by)` of two values: the first one, unless the second one is less. -/
def minReducer {β : Type} [LT β] [DecidableLT β] (by' : V → β) (s v : V) : V :=
  if by' v < by' s then v else s

/-- The items that `count_final` reduces, by `s + x`. -/
def initCount {X : Type} (key : X → K) (up : List X) : List (K × Int) := up.map fun x => (key x, 1)

/-! ### Batches -/

variable {reducer : V → V → V}

/-- Within a batch, the values of each key are reduced. -/
theorem valuesOf_preReducer [DecidableEq K] (k : K) (batch : List (K × V)) :
    Keyed.valuesOf k (preReducer reducer batch) =
      (Reduce.reduce reducer (Keyed.valuesOf k batch)).toList := by
  rw [preReducer, Dict.valuesOf_entries]
  congr 1
  induction batch using List.reverseRecOn with
  | nil => rfl
  | append_singleton batch p ih =>
    rw [List.foldl_append, List.foldl_cons, List.foldl_nil]
    generalize List.foldl _ _ batch = states at ih
    have hset : (match states.get? p.1 with
        | none => states.set p.1 p.2
        | some s => states.set p.1 (reducer s p.2)) =
          states.set p.1 (((states.get? p.1).map fun s => reducer s p.2).getD p.2) := by
      cases states.get? p.1 <;> rfl
    rw [hset, Dict.get?_set, Keyed.valuesOf_append, Keyed.valuesOf_cons, Keyed.valuesOf_nil]
    by_cases hk : p.1 = k
    · rw [if_pos hk, if_pos hk, hk, ih, Reduce.reduce_concat]
      cases Reduce.reduce reducer (Keyed.valuesOf k batch) <;> rfl
    · rw [if_neg hk, if_neg hk, List.append_nil, ih]

/-- **Batches make no difference** to an associative reducer. -/
theorem reduce_valuesOf_preReducer [DecidableEq K] [Std.Associative reducer] (k : K)
    (batches : List (List (K × V))) :
    Reduce.reduce reducer (Keyed.valuesOf k (batches.flatMap (preReducer reducer))) =
      Reduce.reduce reducer (Keyed.valuesOf k batches.flatten) := by
  have hpre : Keyed.valuesOf k (batches.flatMap (preReducer reducer)) =
      (batches.map (Keyed.valuesOf k)).flatMap fun vs => (Reduce.reduce reducer vs).toList := by
    rw [Keyed.valuesOf_flatMap, List.flatMap_map]
    exact List.flatMap_congr fun batch _ => valuesOf_preReducer k batch
  have hflat : (batches.map (Keyed.valuesOf k)).flatten = Keyed.valuesOf k batches.flatten := by
    have hid := Keyed.valuesOf_flatMap k id batches
    rw [List.flatMap_id] at hid
    rw [hid, List.flatMap_def]
    rfl
  rw [hpre, Reduce.reduce_flatMap, hflat]

/-! ### The pieces that are emitted -/

section Key

variable [LinearOrder K] {k : K} {l l₁ : Option (Py V)}
  {events : List (UnaryEvent K V (Py V) (Py V))} {x : UnaryEvent K V (Py V) (Py V)}

/-- The number of `on_eof` calls for a key. -/
def eofCalls {V W S : Type} (k : K) (events : List (UnaryEvent K V W S)) : Nat :=
  (events.filter fun x => x.isOnEof = true ∧ x.key = k).length

theorem eofCalls_append {V W S : Type} (k : K) (o₁ o₂ : List (UnaryEvent K V W S)) :
    eofCalls k (o₁ ++ o₂) = eofCalls k o₁ + eofCalls k o₂ := by
  rw [eofCalls, List.filter_append, List.length_append]
  rfl

theorem eofCalls_concat {V W S : Type} {events : List (UnaryEvent K V W S)}
    {x : UnaryEvent K V W S} (h : ¬ (x.isOnEof = true ∧ x.key = k)) :
    eofCalls k (events ++ [x]) = eofCalls k events := by
  have hnone : [x].filter (fun x => x.isOnEof = true ∧ x.key = k) = [] := by
    simpa using h
  rw [eofCalls_append, eofCalls, eofCalls, hnone]
  rfl

variable (reducer) in
/-- The values of a key are pieces that have been emitted, one for each `on_eof` call, and those of
its logic. -/
structure Pieces (k : K) (l : Option (Py V)) (events : List (UnaryEvent K V (Py V) (Py V)))
    (pieces : List (List V)) (current : List V) : Prop where
  received : Unary.received k events = pieces.flatten ++ current
  sent : Unary.sent k events = pieces.map (Reduce.reduce reducer)
  ne_nil : ∀ piece ∈ pieces, piece ≠ []
  logic : l = if current = [] then none else some (Reduce.reduce reducer current)
  eofCalls : eofCalls k events = pieces.length

variable {pieces : List (List V)} {current : List V}

theorem Pieces.congr (h : Pieces reducer k l events pieces current)
    {events' : List (UnaryEvent K V (Py V) (Py V))}
    (hreceived : Unary.received k events' = Unary.received k events)
    (hsent : Unary.sent k events' = Unary.sent k events)
    (heof : ReduceFinal.eofCalls k events' = ReduceFinal.eofCalls k events) :
    Pieces reducer k l events' pieces current :=
  ⟨by rw [hreceived, h.received], by rw [hsent, h.sent], h.ne_nil, h.logic, by rw [heof, h.eofCalls]⟩

theorem Pieces.onItem (h : Pieces reducer k l events pieces current) (e : Nat) (now : Int) (v : V) :
    Pieces reducer k (Unary.kept (Unary.callItem (reduceFinal reducer) now l v))
      (events ++ [.onItem e k v (Unary.callItem (reduceFinal reducer) now l v).2.1
        (Unary.callItem (reduceFinal reducer) now l v).2.2]) pieces (current ++ [v]) := by
  have hstate : l.getD none = Reduce.reduce reducer current := by
    rw [h.logic]
    by_cases hc : current = []
    · subst hc
      rfl
    · rw [if_neg hc]
      rfl
  have hcall : Unary.callItem (reduceFinal reducer) now l v =
      (Reduce.reduce reducer (current ++ [v]), [], .retain) := by
    rw [Reduce.reduce_concat, ← hstate]
    show (shimFolder reducer (l.getD none) v, _, _) = _
    cases l.getD none <;> rfl
  rw [hcall]
  refine ⟨?_, ?_, h.ne_nil, ?_, ?_⟩
  · rw [Unary.received_concat_onItem, h.received, List.append_assoc]
  · rw [Unary.sent_concat_onItem, h.sent, List.append_nil]
  · rw [if_neg (by simp)]
    rfl
  · rw [eofCalls_concat (by simp [UnaryEvent.isOnEof]), h.eofCalls]

/-- The end of the input emits the accumulator, and cuts off a piece. -/
theorem Pieces.onEof {state : Py V} (h : Pieces reducer k (some state) events pieces current)
    (e : Nat) : Pieces reducer k none
      (events ++ [.onEof e k ((reduceFinal reducer).onEof state).2.1
        ((reduceFinal reducer).onEof state).2.2]) (pieces ++ [current]) [] := by
  have hlogic := h.logic
  have hne : current ≠ [] := by
    intro hc
    rw [if_pos hc] at hlogic
    cases hlogic
  rw [if_neg hne] at hlogic
  cases hlogic
  refine ⟨?_, ?_, fun piece hp => ?_, rfl, ?_⟩
  · rw [Unary.received_concat rfl, h.received]
    simp
  · rw [Unary.sent_concat_onEof, h.sent, List.map_append]
    rfl
  · rcases List.mem_append.mp hp with hp | hp
    · exact h.ne_nil piece hp
    · rw [List.mem_singleton.mp hp]
      exact hne
  · rw [eofCalls_append, h.eofCalls, List.length_append]
    congr 1
    simp [ReduceFinal.eofCalls, UnaryEvent.isOnEof, UnaryEvent.key]

theorem pieces_of_keyRun (h : Unary.KeyRun (reduceFinal reducer) k none events l)
    (hload : ∀ x ∈ events, x.isLoad = false) :
    ∃ pieces current, Pieces reducer k l events pieces current := by
  refine h.induct (P := fun l events => ∃ pieces current, Pieces reducer k l events pieces current)
    (Q := fun x => x.isLoad = false) ?_ ?_ hload ?_
  · rintro l xs x hk ⟨pieces, current, hp⟩
    exact ⟨pieces, current, hp.congr (Unary.received_concat_of_ne hk) (Unary.sent_concat_of_ne hk)
      (eofCalls_concat fun hc => hk hc.2)⟩
  · rintro l xs x l₁ hx hs ⟨pieces, current, hp⟩
    cases hs with
    | onItem l e now v => exact ⟨pieces, current ++ [v], hp.onItem e now v⟩
    | onNotify state e sched =>
      refine ⟨pieces, current, hp.congr (Unary.received_concat rfl) ?_ ?_⟩
      · rw [Unary.sent_concat_onNotify]
        exact List.append_nil _
      · exact eofCalls_concat fun hc => by cases hc.1
    | onEof state e => exact ⟨pieces ++ [current], [], hp.onEof e⟩
    | snap l e =>
      exact ⟨pieces, current, hp.congr (Unary.received_concat rfl) (Unary.sent_concat_snap _)
        (eofCalls_concat fun hc => by cases hc.1)⟩
    | load l e now change => cases hx
  · exact ⟨[], [], rfl, rfl, fun piece hp => absurd hp List.not_mem_nil, rfl, rfl⟩

/-- When the key has no logic left, its values have been emitted in one piece if there was no more
than one `on_eof` call. -/
theorem Pieces.sent_eq_iff (h : Pieces reducer k none events pieces current) :
    Unary.sent k events = (Reduce.reduce reducer (Unary.received k events)).toList.map some ↔
      ReduceFinal.eofCalls k events ≤ 1 := by
  have hcurrent : current = [] := by
    by_contra hc
    have hlogic := h.logic
    rw [if_neg hc] at hlogic
    cases hlogic
  have hreceived := h.received
  rw [hcurrent, List.append_nil] at hreceived
  rw [h.sent, hreceived, h.eofCalls]
  constructor
  · intro he
    have hlen := congrArg List.length he
    rw [List.length_map, List.length_map] at hlen
    rw [hlen]
    cases Reduce.reduce reducer pieces.flatten <;> simp
  · intro hle
    cases pieces with
    | nil => rfl
    | cons piece pieces =>
      have hnil : pieces = [] := by
        rw [List.length_cons] at hle
        exact List.length_eq_zero_iff.mp (by omega)
      subst hnil
      have hne := h.ne_nil piece (by simp)
      rw [List.flatten_singleton, List.map_singleton]
      cases hr : Reduce.reduce reducer piece with
      | none => exact absurd ((Reduce.reduce_eq_none reducer).mp hr) hne
      | some v => rfl

end Key

/-! ### How often the end of the input is signalled -/

/-- In the outstanding epochs, as a key sees them, no values come after an epoch that has values or
starts with a logic. -/
def EndsOnce (items : Nat → List V) : Bool → List Nat → Prop
  | _, [] => True
  | has, e :: es =>
    (has = true ∨ items e ≠ [] → ∀ e' ∈ es, items e' = []) ∧ EndsOnce items false es

/-- The outstanding epochs that have values or start with a logic. -/
def eofEpochs (items : Nat → List V) : Bool → List Nat → Nat
  | _, [] => 0
  | has, e :: es => (if has = true ∨ items e ≠ [] then 1 else 0) + eofEpochs items false es

theorem eofEpochs_eq_zero {items : Nat → List V} {es : List Nat} :
    eofEpochs items false es = 0 ↔ ∀ e ∈ es, items e = [] := by
  induction es with
  | nil => simp [eofEpochs]
  | cons e es ih =>
    rw [eofEpochs, Nat.add_eq_zero_iff, ih, List.forall_mem_cons]
    refine and_congr_left fun _ => ?_
    by_cases he : items e = []
    · simp [he]
    · simp [he]

theorem eofEpochs_le_one {items : Nat → List V} {has : Bool} {es : List Nat} :
    eofEpochs items has es ≤ 1 ↔ EndsOnce items has es := by
  induction es generalizing has with
  | nil => simp [eofEpochs, EndsOnce]
  | cons e es ih =>
    rw [eofEpochs, EndsOnce, ← ih]
    by_cases he : has = true ∨ items e ≠ []
    · rw [if_pos he, ← eofEpochs_eq_zero]
      constructor
      · intro hle
        exact ⟨fun _ => by omega, by omega⟩
      · rintro ⟨hzero, -⟩
        rw [hzero he]
    · rw [if_neg he, Nat.zero_add]
      exact ⟨fun hle => ⟨fun hc => absurd hc he, hle⟩, fun h => h.2⟩

theorem eofEpochs_congr {items items' : Nat → List V} {has : Bool} {es : List Nat}
    (h : ∀ e ∈ es, items e = items' e) : eofEpochs items has es = eofEpochs items' has es := by
  induction es generalizing has with
  | nil => rfl
  | cons e es ih =>
    rw [eofEpochs, eofEpochs, h e (by simp), ih fun e' he' => h e' (List.mem_cons_of_mem _ he')]

section Calls

variable [LinearOrder K] {W S L : Type} {logic : UnaryLogic V W S L} {now : Int} {e : Nat} {k : K}

/-- A logic that is only discarded at the end of the input. -/
structure Final (logic : UnaryLogic V W S L) : Prop where
  onItem : ∀ l now value, (logic.onItem l now value).2.2 = .retain
  onNotify : ∀ l sched, (logic.onNotify l sched).2.2 = .retain
  onEof : ∀ l, (logic.onEof l).2.2 = .discard

theorem final_reduceFinal (reducer : V → V → V) : Final (reduceFinal reducer) :=
  ⟨fun _ _ _ => rfl, fun _ _ => rfl, fun _ => rfl⟩

/-- Values make a logic, and keep it. -/
theorem Final.feed_eq_none (h : Final logic) (l : Option L) (vs : List V) :
    (Unary.feed logic now l vs).1 = none ↔ l = none ∧ vs = [] := by
  induction vs generalizing l with
  | nil => simp
  | cons v vs ih =>
    have hret := h.onItem (l.getD (logic.builder now none)) now v
    rcases hr : Unary.callItem logic now l v with ⟨l₁, emit, isComplete⟩
    rw [Unary.callItem] at hr
    rw [hr] at hret
    obtain rfl : isComplete = .retain := hret
    have hrest : (Unary.feed logic now l (v :: vs)).1 = (Unary.feed logic now (some l₁) vs).1 := by
      rw [Unary.feed, Unary.callItem, hr]
      rfl
    rw [hrest, ih]
    simp

theorem Final.notify {s s₁ : UnaryKeys K L} {o : List (UnaryEvent K V W S)}
    {entries : List (K × Int)} (h : Final logic)
    (hr : Runs.run (Unary.notifyStep logic e) s entries = some (s₁, o)) :
    k ∈ s₁.logics ↔ k ∈ s.logics := by
  refine ⟨Unary.run_notifyStep_mem hr k, fun hk => ?_⟩
  refine Runs.run_induct (P := fun t => k ∈ t.logics) (Q := fun _ _ => True)
    (fun t entry t₁ o₁ ht _ hs => ?_) hk (Runs.along_true _ _) hr
  obtain ⟨l, -, hs⟩ := Option.bind_eq_some_iff.mp hs
  have hret := h.onNotify l entry.2
  rcases hn : logic.onNotify l entry.2 with ⟨l₁, emit, isComplete⟩
  rw [hn] at hs hret
  obtain rfl : isComplete = .retain := hret
  cases hs
  exact TreeMap.mem_insert.mpr (.inr ht)

theorem eofCalls_eq_zero {o : List (UnaryEvent K V W S)} (h : ∀ x ∈ o, x.isOnEof = false) :
    eofCalls k o = 0 := by
  rw [eofCalls, List.length_eq_zero_iff, List.filter_eq_nil_iff]
  intro x hx
  simp [h x hx]

theorem run_itemStep_isOnEof {s s₁ : UnaryKeys K L} {o : List (UnaryEvent K V W S)}
    {items : List (K × V)} (hr : Runs.run (Unary.itemStep logic now e) s items = some (s₁, o)) :
    ∀ x ∈ o, x.isOnEof = false := by
  intro x hx
  obtain ⟨item, -, t, t₁, o₁, hs, hx⟩ := Runs.exists_of_mem_run hr hx
  cases hs
  rw [List.mem_singleton.mp hx]
  rfl

theorem run_notifyStep_isOnEof {s s₁ : UnaryKeys K L} {o : List (UnaryEvent K V W S)}
    {entries : List (K × Int)}
    (hr : Runs.run (Unary.notifyStep logic e) s entries = some (s₁, o)) :
    ∀ x ∈ o, x.isOnEof = false := by
  intro x hx
  obtain ⟨entry, -, t, t₁, o₁, hs, hx⟩ := Runs.exists_of_mem_run hr hx
  obtain ⟨l, -, hs⟩ := Option.bind_eq_some_iff.mp hs
  cases hs
  rw [List.mem_singleton.mp hx]
  rfl

/-- The end-of-input phase calls `on_eof` for the keys that have logics. -/
theorem eofPhase_eofCalls {eof : Bool} {s s₁ : UnaryKeys K L} {o : List (UnaryEvent K V W S)}
    (h : Unary.eofPhase logic eof e s = some (s₁, o)) :
    eofCalls k o = if eof = true ∧ k ∈ s.logics then 1 else 0 := by
  cases eof with
  | false =>
    cases h
    rfl
  | true =>
    obtain ⟨t, o', hr⟩ := Unary.run_eofStep logic e s s.logics.toList
    rw [Unary.eofPhase_true hr] at h
    cases h
    have hpair : s.logics.toList.Pairwise fun x y => x.1 ≠ y.1 :=
      TreeMap.distinct_keys_toList.imp fun hne he => hne (by simp [he])
    rw [eofCalls, Unary.run_eofStep_events hr, List.filter_map, List.length_map]
    calc (s.logics.toList.filter _).length
        = (s.logics.toList.filter fun p => p.1 = k).length := by
          simp [Function.comp_def, UnaryEvent.isOnEof, UnaryEvent.key]
      _ = if k ∈ s.logics.toList.map Prod.fst then 1 else 0 := Keyed.length_filter_key k hpair
      _ = if true = true ∧ k ∈ s.logics then 1 else 0 := by
          refine if_congr ?_ rfl rfl
          rw [TreeMap.map_fst_toList_eq_keys, TreeMap.mem_keys]
          simp

/-- **How often an epoch calls `on_eof` for a key.** -/
theorem Final.processEpoch_eofCalls (h : Final logic) {f : Frontier} {s s₁ : UnaryState K V S L}
    {o : List (UnaryEvent K V W S)} (hp : Unary.processEpoch logic now f s e = some (s₁, o)) :
    eofCalls k o = if f = none ∧ (s.keys.logics[k]?.isSome = true ∨
      Keyed.valuesOf k (s.inbuf.getD e []) ≠ []) then 1 else 0 := by
  obtain ⟨-, keys, called, hcall, hclose⟩ := Unary.processEpoch_eq_some.mp hp
  obtain ⟨t₁, o₁, t₂, o₂, t₃, o₃, h₁, h₂, h₃, -, rfl⟩ := Unary.callPhases_eq_some.mp hcall
  have hmem : k ∈ t₂.logics ↔ s.keys.logics[k]?.isSome = true ∨
      Keyed.valuesOf k (s.inbuf.getD e []) ≠ [] := by
    rw [h.notify h₂, ← TreeMap.isSome_getElem?_iff_mem, (Unary.run_itemStep_key h₁ k).1,
      Option.isSome_iff_ne_none, Ne, h.feed_eq_none, Option.isSome_iff_ne_none]
    tauto
  have hcalled : eofCalls k (o₁ ++ o₂ ++ o₃) = if f = none ∧ (s.keys.logics[k]?.isSome = true ∨
      Keyed.valuesOf k (s.inbuf.getD e []) ≠ []) then 1 else 0 := by
    rw [eofCalls_append, eofCalls_append, eofCalls_eq_zero (run_itemStep_isOnEof h₁),
      eofCalls_eq_zero (run_notifyStep_isOnEof h₂), eofPhase_eofCalls h₃, Nat.zero_add]
    refine if_congr ?_ rfl rfl
    rw [hmem, Frontier.isEof, Option.isNone_iff_eq_none]
  rcases hclose with ⟨-, -, rfl⟩ | ⟨-, -, rfl⟩
  · have hclosed : ∀ x ∈ Unary.snapshots logic e keys ++
        (s.loadsInbuf.getD e []).map (fun l => (.load e l.1 l.2 : UnaryEvent K V W S)),
        x.isOnEof = false := by
      intro x hx
      rcases List.mem_append.mp hx with hx | hx
      · obtain ⟨k', -, rfl⟩ := Unary.mem_snapshots.mp hx
        rfl
      · obtain ⟨load, -, rfl⟩ := List.mem_map.mp hx
        rfl
    rw [eofCalls_append, hcalled, eofCalls_eq_zero hclosed, Nat.add_zero]
  · exact hcalled

/-- How often the outstanding epochs at the end of the inputs call `on_eof` for a key. -/
theorem Final.run_eofCalls (h : Final logic) {es : List Nat} {s s₁ : UnaryState K V S L}
    {o : List (UnaryEvent K V W S)} (hsorted : es.Pairwise (· < ·)) (hl : Unary.NoLoads s)
    (hr : Runs.run (Unary.processEpoch logic now none) s es = some (s₁, o)) :
    eofCalls k o = eofEpochs (fun e => Keyed.valuesOf k (s.inbuf.getD e []))
      s.keys.logics[k]?.isSome es := by
  have hdiscard : ∀ l, Unary.kept (logic.onEof l) = none := by
    intro l
    have hd := h.onEof l
    rcases hl' : logic.onEof l with ⟨l', emit, isComplete⟩
    rw [hl'] at hd
    obtain rfl : isComplete = .discard := hd
    rfl
  induction es generalizing s o with
  | nil =>
    cases hr
    rfl
  | cons e es ih =>
    obtain ⟨t, o₁, o₂, hp, hrest, rfl⟩ := Runs.exists_of_run_cons hr
    obtain ⟨hlater, hsorted'⟩ := List.pairwise_cons.mp hsorted
    have hgone := (Unary.processEpoch_over hdiscard hl hp).2 rfl k
    have hinbuf : t.inbuf = s.inbuf.erase e := by
      obtain ⟨-, keys, called, -, ⟨-, rfl, -⟩ | ⟨-, rfl, -⟩⟩ := Unary.processEpoch_eq_some.mp hp
      · rfl
      · rfl
    have hitems : ∀ e' ∈ es, Keyed.valuesOf k (t.inbuf.getD e' []) =
        Keyed.valuesOf k (s.inbuf.getD e' []) := by
      intro e' he'
      rw [hinbuf, Unary.getD_erase_of_ne (hlater e' he').ne]
    rw [eofCalls_append, h.processEpoch_eofCalls hp, ih hsorted' (hl.epoch hp) hrest, hgone,
      eofEpochs_congr hitems, eofEpochs]
    congr 1
    exact if_congr (and_iff_right rfl) rfl rfl

/-- When the inputs end, no key has values in an outstanding epoch after one that has values of the
key or starts with a logic for it. -/
def ReducedOnce (resumeEpoch : Nat) (s : UnaryState K V S L) (a : Activation K V S) : Prop :=
  a.frontier = none → ∀ c ∈ s.cap, ∀ k : K,
    EndsOnce (fun e => Keyed.valuesOf k ((Unary.buffered s a).inbuf.getD e []))
      s.keys.logics[k]?.isSome (Unary.epochsOf resumeEpoch c s a)

variable {resumeEpoch : Nat} {s s₁ : UnaryState K V S L} {o : List (UnaryEvent K V W S)}

/-- Before the end of the inputs `on_eof` is not called. -/
theorem Final.activate_open (h : Final logic) {a : Activation K V S} (hf : a.frontier ≠ none)
    (ha : Unary.activate logic resumeEpoch s a = some (s₁, o)) : eofCalls k o = 0 := by
  rcases Unary.activate_cases ha with ⟨-, rfl, rfl⟩ | ⟨c, t, -, hr, rfl⟩
  · rfl
  · refine Runs.run_history (P := fun _ _ o => eofCalls k o = 0) (Q := fun _ _ => True)
      (fun _ _ _ _ _ _ ho _ hp => ?_) rfl (Runs.along_true _ _) hr
    rw [eofCalls_append, ho, h.processEpoch_eofCalls hp, if_neg fun hc => hf hc.1]

/-- **Each key's `on_eof` is called at most once** in an activation just if no values of the key come
after a call. -/
theorem Final.activate_eofCalls (h : Final logic) {a : Activation K V S} (hl : Unary.NoLoads s)
    (hloads : a.loads = []) (ha : Unary.activate logic resumeEpoch s a = some (s₁, o)) :
    (∀ k : K, eofCalls k o ≤ 1) ↔ ReducedOnce resumeEpoch s a := by
  rcases Unary.activate_cases ha with ⟨hcap, rfl, rfl⟩ | ⟨c, t, hcap, hr, rfl⟩
  · refine ⟨fun _ _ c hc => ?_, fun _ _ => Nat.zero_le 1⟩
    rw [hcap] at hc
    cases hc
  · by_cases hf : a.frontier = none
    · rw [hf] at hr
      have hcount := fun k => h.run_eofCalls (k := k) Unary.pairwise_processEpochs
        (hl.buffered hloads) hr
      constructor
      · intro hle _ c' hc' k
        rw [hcap] at hc'
        cases hc'
        rw [← eofEpochs_le_one]
        exact (hcount k).symm.trans_le (hle k)
      · intro hq k
        rw [hcount k]
        exact eofEpochs_le_one.mpr (hq hf c hcap k)
    · refine ⟨fun _ hnone => absurd hnone hf, fun _ k => ?_⟩
      rw [h.activate_open hf ha]
      exact Nat.zero_le 1

/-- Once the outputs are closed, nothing is called and nothing is asked. -/
theorem run_over {as : List (Activation K V S)} (hcap : s.cap = none)
    (hr : Runs.run (Unary.activate logic resumeEpoch) s as = some (s₁, o)) :
    o = [] ∧ Runs.Along (Unary.activate logic resumeEpoch) (ReducedOnce resumeEpoch) s as := by
  induction as generalizing s o with
  | nil =>
    cases hr
    exact ⟨rfl, trivial⟩
  | cons a as ih =>
    obtain ⟨t, o₁, o₂, ha, hrest, rfl⟩ := Runs.exists_of_run_cons hr
    have hstep : Unary.activate logic resumeEpoch s a = some (s, []) := Unary.activate_none hcap
    rw [hstep] at ha
    cases ha
    obtain ⟨rfl, halong⟩ := ih hcap hrest
    refine ⟨rfl, fun _ c hc => ?_, fun t o ht => ?_⟩
    · rw [hcap] at hc
      cases hc
    · rw [hstep] at ht
      cases ht
      exact halong

/-- **Each key's `on_eof` is called at most once** in a run just if no values of a key come after a
call. -/
theorem Final.run_eofCalls_le_one (h : Final logic) {as : List (Activation K V S)}
    (hl : Unary.NoLoads s) (hloads : ∀ a ∈ as, a.loads = [])
    (hr : Runs.run (Unary.activate logic resumeEpoch) s as = some (s₁, o)) :
    (∀ k : K, eofCalls k o ≤ 1) ↔
      Runs.Along (Unary.activate logic resumeEpoch) (ReducedOnce resumeEpoch) s as := by
  induction as generalizing s o with
  | nil =>
    cases hr
    exact ⟨fun _ => trivial, fun _ _ => Nat.zero_le 1⟩
  | cons a as ih =>
    obtain ⟨t, o₁, o₂, ha, hrest, rfl⟩ := Runs.exists_of_run_cons hr
    obtain ⟨hloads₁, hloads₂⟩ := List.forall_mem_cons.mp hloads
    have hone := h.activate_eofCalls hl hloads₁ ha
    have hlt := (hl.activation hloads₁ ha).1
    have hsplit : Runs.Along (Unary.activate logic resumeEpoch) (ReducedOnce resumeEpoch) s (a :: as) ↔
        ReducedOnce resumeEpoch s a ∧
          Runs.Along (Unary.activate logic resumeEpoch) (ReducedOnce resumeEpoch) t as := by
      refine and_congr_right fun _ => ⟨fun hall => hall t o₁ ha, fun halong t' o' ht' => ?_⟩
      rw [ha] at ht'
      cases ht'
      exact halong
    rw [hsplit]
    by_cases hf : a.frontier = none
    · -- this activation closes the outputs
      have hcap : t.cap = none := by
        rcases Unary.activate_cases ha with ⟨hcap, rfl, -⟩ | ⟨c, t', -, -, rfl⟩
        · exact hcap
        · simp [Unary.finished, hf, Frontier.isEof]
      obtain ⟨rfl, halong⟩ := run_over hcap hrest
      rw [List.append_nil, hone]
      exact (and_iff_left halong).symm
    · have hzero : ∀ k : K, eofCalls k o₁ = 0 := fun k => h.activate_open hf ha
      have hq : ReducedOnce resumeEpoch s a := fun hnone => absurd hnone hf
      rw [and_iff_right hq, ← ih hlt hloads₂ hrest]
      refine forall_congr' fun k => ?_
      rw [eofCalls_append, hzero k, Nat.zero_add]

end Calls

/-! ### What `reduce_final` emits -/

/-- The left fold of some values, once, if there are any. -/
def foldOnce (reducer : V → V → V) : List V → List (Py V)
  | [] => []
  | v :: vs => [some (vs.foldl reducer v)]

theorem foldOnce_eq (vs : List V) :
    foldOnce reducer vs = (Reduce.reduce reducer vs).toList.map some := by
  cases vs with
  | nil => rfl
  | cons v vs =>
    rw [Reduce.reduce_cons]
    rfl

/-! ### The instances -/

section Instances

/-- A reducer that keeps the first value, unless the second one beats it. -/
theorem reduce_eq_argAux {r : V → V → Prop} [DecidableRel r]
    (h : ∀ s v, reducer s v = if r v s then v else s) (vs : List V) :
    Reduce.reduce reducer vs = vs.foldl (List.argAux r) none := by
  have hstep : List.argAux r = fun acc v => acc.merge reducer (some v) := by
    funext acc v
    cases acc with
    | none => rfl
    | some s =>
      rw [Option.merge_some_some, h, apply_ite some]
      rfl
  rw [hstep]
  rfl

variable {β : Type} [LinearOrder β]

/-- Ties are associative, as they all go to the earliest value. -/
theorem associative_of_greater {f : V → β}
    (h : ∀ s v, reducer s v = if f s < f v then v else s) : Std.Associative reducer := by
  refine ⟨fun a b c => ?_⟩
  rw [h a b, h b c]
  by_cases hab : f a < f b
  · rw [if_pos hab, h b c]
    by_cases hbc : f b < f c
    · rw [if_pos hbc, h, if_pos (hab.trans hbc)]
    · rw [if_neg hbc, h, if_pos hab]
  · rw [if_neg hab, h a c]
    by_cases hbc : f b < f c
    · rw [if_pos hbc, h]
    · rw [if_neg hbc, h, if_neg hab, if_neg]
      exact fun hac => hbc ((not_lt.mp hab).trans_lt hac)

instance (by' : V → β) : Std.Associative (maxReducer by') :=
  associative_of_greater (f := by') fun _ _ => rfl

instance (by' : V → β) : Std.Associative (minReducer by') :=
  associative_of_greater (f := fun v => OrderDual.toDual (by' v)) fun _ _ => rfl

/-- `max_final` emits the first of the greatest values. -/
theorem foldOnce_maxReducer (by' : V → β) (vs : List V) :
    foldOnce (maxReducer by') vs = (vs.argmax by').toList.map some := by
  have hmax : Reduce.reduce (maxReducer by') vs = vs.argmax by' :=
    reduce_eq_argAux (fun _ _ => rfl) vs
  rw [foldOnce_eq, hmax]

/-- `min_final` emits the first of the least values. -/
theorem foldOnce_minReducer (by' : V → β) (vs : List V) :
    foldOnce (minReducer by') vs = (vs.argmin by').toList.map some := by
  have hmin : Reduce.reduce (minReducer by') vs = vs.argmin by' :=
    reduce_eq_argAux (fun _ _ => rfl) vs
  rw [foldOnce_eq, hmin]

theorem valuesOf_initCount {X : Type} [DecidableEq K] (key : X → K) (k : K) (up : List X) :
    Keyed.valuesOf k (initCount key up) = List.replicate (up.countP fun x => key x = k) 1 := by
  induction up with
  | nil => rfl
  | cons x up ih =>
    show Keyed.valuesOf k ((key x, 1) :: initCount key up) = _
    rw [Keyed.valuesOf_cons, List.countP_cons, ih]
    by_cases hk : key x = k
    · simp [hk, List.replicate_succ]
    · simp [hk]

/-- `count_final` emits how many items have the key. -/
theorem foldOnce_initCount {X : Type} [DecidableEq K] (key : X → K) (k : K) (up : List X) :
    foldOnce (· + ·) (Keyed.valuesOf k (initCount key up)) =
      if up.countP (fun x => key x = k) = 0 then []
      else [some ((up.countP fun x => key x = k : Nat) : Int)] := by
  rw [valuesOf_initCount, foldOnce_eq]
  generalize up.countP (fun x => key x = k) = n
  induction n with
  | zero => rfl
  | succ n ih =>
    rw [List.replicate_succ', Reduce.reduce_concat, if_neg (Nat.succ_ne_zero n)]
    by_cases hn : n = 0
    · subst hn
      rfl
    · rw [if_neg hn] at ih
      cases hr : Reduce.reduce (· + ·) (List.replicate n (1 : Int)) with
      | none => exact absurd ((Reduce.reduce_eq_none _).mp hr) (by simpa using hn)
      | some sum =>
        rw [hr] at ih
        obtain rfl : sum = n := by simpa using ih
        rfl

end Instances

/-! ### The end of the inputs -/

variable [LinearOrder K]

/-- For each key that occurs upstream, `reduce_final` emits the left fold of its values once; for
other keys it emits nothing. -/
def FoldsOnce (reducer : V → V → V) (resumeEpoch : Nat) (up : List (Nat × List (K × V)))
    (as : List (Activation K V (Py V))) : Prop :=
  ∃ s events, Runs.run (Unary.activate (reduceFinal reducer) resumeEpoch) Unary.init as =
      some (s, events) ∧
    ∀ k, Unary.sent k events = foldOnce reducer (Keyed.valuesOf k (Unary.inEpochOrder up))

/-- The values given to a key reduce to the same as those upstream. -/
theorem reduce_received [Std.Associative reducer] {up : List (Nat × List (K × V))}
    {as : List (Activation K V (Py V))}
    (hup : ∀ e, Unary.delivered as e = (Keyed.valuesOf e up).flatMap (preReducer reducer)) (k : K) :
    Reduce.reduce reducer (Keyed.valuesOf k (Unary.arrivals as)) =
      Reduce.reduce reducer (Keyed.valuesOf k (Unary.inEpochOrder up)) := by
  let n := max (Unary.epochBound (as.flatMap fun a => a.items)) (Unary.epochBound up)
  have harrivals : Unary.arrivals as =
      ((List.range n).flatMap fun e => Keyed.valuesOf e up).flatMap (preReducer reducer) := by
    rw [Unary.arrivals, Unary.inEpochOrder_eq (Nat.le_max_left _ (Unary.epochBound up)),
      List.flatMap_assoc]
    exact List.flatMap_congr fun e _ => hup e
  have hupstream : Unary.inEpochOrder up =
      ((List.range n).flatMap fun e => Keyed.valuesOf e up).flatten := by
    rw [Unary.inEpochOrder_eq (Nat.le_max_right (Unary.epochBound (as.flatMap fun a => a.items)) _),
      ← List.flatMap_id, List.flatMap_assoc]
    exact List.flatMap_congr fun e _ => List.flatMap_id.symm
  rw [harrivals, hupstream, reduce_valuesOf_preReducer]

/-- `reduce_final` folds the values of each key once just if no values of a key come after an `on_eof`
call for it. -/
theorem foldsOnce_iff [Std.Associative reducer] (resumeEpoch : Nat)
    {up : List (Nat × List (K × V))} {as : List (Activation K V (Py V))}
    (has : Unary.Schedule (some 0) (some 0) as) (hloads : ∀ a ∈ as, a.loads = [])
    (hend : ∃ a ∈ as, a.frontier = none)
    (hup : ∀ e, Unary.delivered as e = (Keyed.valuesOf e up).flatMap (preReducer reducer)) :
    FoldsOnce reducer resumeEpoch up as ↔
      Runs.Along (Unary.activate (reduceFinal reducer) resumeEpoch) (ReducedOnce resumeEpoch)
        Unary.init as := by
  obtain ⟨s, events, hr, hload, hlives, -, hgiven⟩ :=
    Unary.run_lives (reduceFinal reducer) resumeEpoch has hloads
  have hinit : Unary.NoLoads (Unary.init : UnaryState K V (Py V) (Py V)) := fun e => by
    simp [Unary.init]
  rw [← (final_reduceFinal reducer).run_eofCalls_le_one hinit hloads hr]
  have hkey : ∀ k, Unary.sent k events = foldOnce reducer (Keyed.valuesOf k (Unary.inEpochOrder up)) ↔
      eofCalls k events ≤ 1 := by
    intro k
    obtain ⟨pieces, current, hp⟩ := pieces_of_keyRun (hlives k) hload
    rw [Unary.logics_eq_none_of_ended hloads hr (fun _ => rfl) hend k] at hp
    rw [← hp.sent_eq_iff, foldOnce_eq, Unary.received, hgiven hend, reduce_received hup]
  constructor
  · rintro ⟨s', events', hr', hsent⟩ k
    rw [hr] at hr'
    cases hr'
    exact (hkey k).mp (hsent k)
  · exact fun hle => ⟨s, events, hr, fun k => (hkey k).mpr (hle k)⟩

/-- **`reduce_final` does not depend on batching.**  It emits the left fold of each key's values once,
for the keys that occur, just if no values of a key come after an `on_eof` call for it.  For
`max_final` and `min_final` the fold is the first of the greatest, or least, values, and for
`count_final` the number of items. -/
theorem reduce_final_folds_once (resumeEpoch : Nat) :
    (∀ {V : Type} (reducer : V → V → V) [Std.Associative reducer] (up : List (Nat × List (K × V)))
      (as : List (Activation K V (Py V))), Unary.Schedule (some 0) (some 0) as →
      (∀ a ∈ as, a.loads = []) → (∃ a ∈ as, a.frontier = none) →
      (∀ e, Unary.delivered as e = (Keyed.valuesOf e up).flatMap (preReducer reducer)) →
      (FoldsOnce reducer resumeEpoch up as ↔
        Runs.Along (Unary.activate (reduceFinal reducer) resumeEpoch) (ReducedOnce resumeEpoch)
          Unary.init as)) ∧
    (∀ {V β : Type} [LinearOrder β] (by' : V → β),
      Std.Associative (maxReducer by') ∧ Std.Associative (minReducer by') ∧
      (∀ vs, foldOnce (maxReducer by') vs = (vs.argmax by').toList.map some) ∧
      ∀ vs, foldOnce (minReducer by') vs = (vs.argmin by').toList.map some) ∧
    Std.Associative (fun s x : Int => s + x) ∧
    ∀ {X : Type} (key : X → K) (k : K) (up : List X),
      foldOnce (fun s x => s + x) (Keyed.valuesOf k (initCount key up)) =
        if up.countP (fun x => key x = k) = 0 then []
        else [some ((up.countP fun x => key x = k : Nat) : Int)] :=
  ⟨fun _ _ _ _ has hloads hend hup => foldsOnce_iff resumeEpoch has hloads hend hup,
    fun by' => ⟨inferInstance, inferInstance, foldOnce_maxReducer by', foldOnce_minReducer by'⟩,
    ⟨Int.add_assoc⟩, foldOnce_initCount⟩

/-- Batches for a sum arrive when epoch 1 is open, and the inputs end. -/
def summed (up : List (Nat × List (Nat × Int))) : List (Activation Nat Int (Py Int)) :=
  [{ now := 0, items := up.map fun b => (b.1, preReducer (fun s x => s + x) b.2), loads := [],
     itemsFrontier := some 1, loadsFrontier := none },
   { now := 1, items := [], loads := [], itemsFrontier := none, loadsFrontier := none }]

theorem schedule_summed (up : List (Nat × List (Nat × Int))) :
    Unary.Schedule (some 0) (some 0) (summed up) := by
  refine ⟨⟨fun b _ => ⟨0, rfl, Nat.zero_le _⟩, List.forall_mem_nil _, ?_, ?_⟩,
    ⟨List.forall_mem_nil _, List.forall_mem_nil _, ?_, ?_⟩, trivial⟩
  · rintro t ⟨⟩
    exact ⟨0, rfl, by decide⟩
  · rintro t ⟨⟩
  · rintro t ⟨⟩
  · rintro t ⟨⟩

theorem loads_summed (up : List (Nat × List (Nat × Int))) : ∀ a ∈ summed up, a.loads = [] := by
  intro a ha
  simp only [summed, List.mem_cons, List.not_mem_nil, or_false] at ha
  rcases ha with rfl | rfl
  · rfl
  · rfl

theorem ends_summed (up : List (Nat × List (Nat × Int))) : ∃ a ∈ summed up, a.frontier = none :=
  ⟨_, List.mem_of_getElem? (i := 1) rfl, rfl⟩

theorem delivered_summed (up : List (Nat × List (Nat × Int))) (e : Nat) :
    Unary.delivered (summed up) e =
      (Keyed.valuesOf e up).flatMap (preReducer fun s x => s + x) := by
  have hitems : (summed up).flatMap (fun a => a.items) =
      up.map fun b => (b.1, preReducer (fun s x => s + x) b.2) := List.append_nil _
  rw [Unary.delivered, hitems]
  induction up with
  | nil => rfl
  | cons b up ih =>
    have ih := ih (List.append_nil _)
    rw [List.map_cons, Keyed.valuesOf_cons, Keyed.valuesOf_cons]
    by_cases hb : b.1 = e
    · rw [if_pos hb, if_pos hb, List.flatten_cons, List.flatMap_cons, ih]
    · rw [if_neg hb, if_neg hb, ih]

/-- Two batches in the epoch that is open. -/
def twoBatches : List (Nat × List (Nat × Int)) := [(1, [(0, 5), (3, 1), (0, 7)]), (1, [(0, 2)])]

/-- With all batches in the epoch that is open, each key's sum is emitted once. -/
theorem reduce_final_folds_once_two_batches :
    FoldsOnce (fun s x => s + x) 1 twoBatches (summed twoBatches) := by
  have : Std.Associative (fun s x : Int => s + x) := ⟨Int.add_assoc⟩
  rw [(reduce_final_folds_once 1).1 (fun s x => s + x) _ _ (schedule_summed _) (loads_summed _)
    (ends_summed _) (delivered_summed _)]
  refine ⟨fun hf => absurd hf (by decide +kernel),
    fun s₁ o₁ hs => ⟨fun _ c hc k => ?_, fun _ _ _ => trivial⟩⟩
  have hstate : (Unary.activate (reduceFinal fun s x => s + x) 1 Unary.init
      ((summed twoBatches).get ⟨0, by decide⟩)).map (fun p =>
        (p.1.cap, Unary.epochsOf 1 1 p.1 ((summed twoBatches).get ⟨1, by decide⟩))) =
      some (some 1, [1]) := by
    decide +kernel
  have hs : Unary.activate (reduceFinal fun s x => s + x) 1 Unary.init
      ((summed twoBatches).get ⟨0, by decide⟩) = some (s₁, o₁) := hs
  rw [hs] at hstate
  obtain ⟨hcap, hepochs⟩ := Prod.mk.inj (Option.some.inj hstate)
  obtain rfl : 1 = c := Option.some.inj (hcap.symm.trans hc)
  have hone : Unary.epochsOf 1 1 s₁ ((summed twoBatches).get ⟨1, by decide⟩) = [1] := hepochs
  show EndsOnce _ _ (Unary.epochsOf 1 1 s₁ ((summed twoBatches).get ⟨1, by decide⟩))
  rw [hone]
  exact ⟨fun _ => List.forall_mem_nil _, trivial⟩

/-- With a value in the epoch after the open one, two accumulators are emitted for the key. -/
theorem not_folds_once_two_epochs :
    Unary.Schedule (some 0) (some 0) (summed [(1, [(0, 5)]), (2, [(0, 7)])]) ∧
    (∀ e, Unary.delivered (summed [(1, [(0, 5)]), (2, [(0, 7)])]) e =
      (Keyed.valuesOf e [(1, [(0, 5)]), (2, [(0, 7)])]).flatMap (preReducer fun s x => s + x)) ∧
    ∃ s events, Runs.run (Unary.activate (reduceFinal fun s x => s + x) 1) Unary.init
        (summed [(1, [(0, 5)]), (2, [(0, 7)])]) = some (s, events) ∧
      Unary.sent 0 events = [some 5, some 7] ∧
      ¬ FoldsOnce (fun s x => s + x) 1 [(1, [(0, 5)]), (2, [(0, 7)])]
        (summed [(1, [(0, 5)]), (2, [(0, 7)])]) := by
  have hsent : (Runs.run (Unary.activate (reduceFinal fun s x => s + x) 1) Unary.init
      (summed [(1, [(0, 5)]), (2, [(0, 7)])])).map (fun p => Unary.sent 0 p.2) =
        some [some 5, some 7] := by
    decide +kernel
  obtain ⟨⟨s, events⟩, hr, hsent⟩ := Option.map_eq_some_iff.mp hsent
  refine ⟨schedule_summed _, delivered_summed _, s, events, hr, hsent, ?_⟩
  rintro ⟨s', events', hr', hfolds⟩
  rw [hr] at hr'
  cases hr'
  have hzero := hfolds 0
  rw [hsent] at hzero
  exact absurd hzero (by decide +kernel)

end ReduceFinal
end Bytewax
