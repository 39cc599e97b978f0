import Bytewax.Operators.UnaryKeyed

/-!
# Bytewax.Operators.UnaryEof — when the end of the input is signalled once and last

Once both inputs have ended, `on_eof` runs in every epoch that is still to be processed, after the
items of the epoch and before its loads.  With several epochs outstanding it runs several times, and
before the items and loads of the later ones.  `SettledEpochs` says, key by key, that only the last
of them has a logic to call and that it has nothing to load; `signalsEof_of_settled` that then every
logic is called exactly once, after everything else.
-/

namespace Bytewax

open Std (TreeMap TreeSet)

namespace UnaryEvent

variable {K V W S : Type}

/-- A call of `on_item`. -/
def isOnItem : UnaryEvent K V W S → Bool
  | .onItem .. => true
  | _ => false

/-- A call of `on_eof`. -/
def isOnEof : UnaryEvent K V W S → Bool
  | .onEof .. => true
  | _ => false

/-- A recovery load. -/
def isLoad : UnaryEvent K V W S → Bool
  | .load .. => true
  | _ => false

/-- An `on_eof` call is neither an item nor a load. -/
theorem of_isOnEof {x : UnaryEvent K V W S} (h : x.isOnEof = true) :
    x.isOnItem = false ∧ x.isLoad = false := by
  cases x with
  | onEof => exact ⟨rfl, rfl⟩
  | onItem | onNotify | snap | load => exact Bool.noConfusion h

end UnaryEvent

namespace Unary

variable {K V W S L : Type} [LinearOrder K]

/-- Whether a key has a logic after one more item, notification or load. -/
def logicAfter (k : K) (has : Bool) : UnaryEvent K V W S → Bool
  | .onItem _ key _ _ isComplete | .onNotify _ key _ _ isComplete =>
    if key = k then isComplete = .retain else has
  | .load _ key (.upsert _) => if key = k then true else has
  | .load _ key .discard => if key = k then false else has
  | .onEof .. | .snap .. => has

/-- Whether a key has a logic after all items, notifications and loads. -/
def HasLogic (k : K) (events : List (UnaryEvent K V W S)) : Bool :=
  events.foldl (logicAfter k) false

/-- No item comes after an `on_eof` call, nor a load for the key of the call. -/
structure EofLast (events : List (UnaryEvent K V W S)) : Prop where
  onItem : events.Pairwise fun x y => x.isOnEof = true → y.isOnItem = false
  load : events.Pairwise fun x y => x.isOnEof = true → y.isLoad = true → x.key ≠ y.key

/-- Every key has one `on_eof` call if it has a logic when the inputs end, and none otherwise. -/
def EofOnce (events : List (UnaryEvent K V W S)) : Prop :=
  ∀ k, (events.filter fun x => x.isOnEof = true ∧ x.key = k).length =
    if HasLogic k events = true then 1 else 0

variable (logic : UnaryLogic V W S L)

/-- The outstanding epochs as one key sees them, from the logic it has: each but the last leaves the
key without a logic once its items are applied, and the last has at most discards to load, for a
key without a logic. -/
def SettledEpochs (now : Int) (items : Nat → List V) (loads : Nat → List (StateChange S)) :
    Option L → List Nat → Prop
  | _, [] => True
  | l, [e] => ∀ change ∈ loads e, change = .discard ∧ (feed logic now l (items e)).1 = none
  | l, e :: e' :: es => (feed logic now l (items e)).1 = none ∧
      SettledEpochs now items loads (loadAll logic now none (loads e)) (e' :: es)

/-- At the end of the inputs, the outstanding epochs are settled for every key. -/
def Settled (resumeEpoch : Nat) (s : UnaryState K V S L) (a : Activation K V S) : Prop :=
  a.frontier = none → ∀ c ∈ s.cap, ∀ k, SettledEpochs logic a.now
    (fun e => Keyed.valuesOf k ((buffered s a).inbuf.getD e []))
    (fun e => Keyed.valuesOf k ((buffered s a).loadsInbuf.getD e []))
    s.keys.logics[k]? (epochsOf resumeEpoch c s a)

variable {logic} {resumeEpoch e : Nat} {now : Int} {f : Frontier}

theorem settledEpochs_congr {items items' : Nat → List V} {loads loads' : Nat → List (StateChange S)}
    {es : List Nat} {l : Option L} (hi : ∀ e ∈ es, items e = items' e)
    (hl : ∀ e ∈ es, loads e = loads' e) :
    SettledEpochs logic now items loads l es ↔ SettledEpochs logic now items' loads' l es := by
  induction es generalizing l with
  | nil => exact Iff.rfl
  | cons e es ih =>
    cases es with
    | nil => simp only [SettledEpochs, hi e (by simp), hl e (by simp)]
    | cons e' es =>
      simp only [SettledEpochs]
      rw [hi e (by simp), hl e (by simp), ih (fun x hx => hi x (List.mem_cons_of_mem _ hx))
        fun x hx => hl x (List.mem_cons_of_mem _ hx)]

/-! ### Until the end of the inputs, the events tell which keys have a logic -/

/-- The events tell which keys have a logic, and `on_eof` has not been called. -/
structure Tracked (s : UnaryKeys K L) (events : List (UnaryEvent K V W S)) : Prop where
  hasLogic : ∀ k, HasLogic k events = true ↔ k ∈ s.logics
  onEof : ∀ x ∈ events, x.isOnEof = false

variable {s s₁ : UnaryKeys K L} {o events : List (UnaryEvent K V W S)}

theorem hasLogic_append_singleton (k : K) (x : UnaryEvent K V W S) :
    HasLogic k (events ++ [x]) = logicAfter k (HasLogic k events) x := by
  simp [HasLogic]

/-- Events that leave the key as it is can be left out. -/
theorem hasLogic_append {k : K} {tail : List (UnaryEvent K V W S)}
    (h : ∀ x ∈ tail, logicAfter k (HasLogic k events) x = HasLogic k events) :
    HasLogic k (events ++ tail) = HasLogic k events := by
  induction tail with
  | nil => rw [List.append_nil]
  | cons x tail ih =>
    rw [HasLogic, List.foldl_append, List.foldl_cons]
    show tail.foldl (logicAfter k) (logicAfter k (HasLogic k events) x) = _
    rw [h x (by simp), HasLogic, ← List.foldl_append]
    exact ih fun y hy => h y (List.mem_cons_of_mem _ hy)

theorem Tracked.step {x : UnaryEvent K V W S} (h : Tracked s events) (hx : x.isOnEof = false)
    (hk : ∀ k, logicAfter k (HasLogic k events) x = true ↔ k ∈ s₁.logics) :
    Tracked s₁ (events ++ [x]) := by
  refine ⟨fun k => by rw [hasLogic_append_singleton, hk], fun y hy => ?_⟩
  rcases List.mem_append.mp hy with hy | hy
  · exact h.onEof y hy
  · rw [List.mem_singleton.mp hy, hx]

theorem Tracked.congr {s₂ : UnaryKeys K L} (h : Tracked s₁ events)
    (hl : s₂.logics = s₁.logics) : Tracked s₂ events :=
  ⟨fun k => by rw [hl, h.hasLogic], h.onEof⟩

theorem Tracked.itemStep {item : K × V} (h : Tracked s events)
    (hs : itemStep logic now e s item = some (s₁, o)) : Tracked s₁ (events ++ o) := by
  rcases hl : logic.onItem (s.logics.getD item.1 (logic.builder now none)) now item.2 with
    ⟨l, emit, isComplete⟩
  rw [Unary.itemStep, hl] at hs
  simp only [Option.some.injEq, Prod.mk.injEq] at hs
  obtain ⟨rfl, rfl⟩ := hs
  refine h.step rfl fun k => ?_
  cases isComplete with
  | discard =>
    simp only [logicAfter, TreeMap.mem_erase, ← h.hasLogic k]
    by_cases hk : item.1 = k <;> simp [hk]
  | retain =>
    simp only [logicAfter, TreeMap.mem_insert, ← h.hasLogic k]
    by_cases hk : item.1 = k <;> simp [hk]

theorem Tracked.notifyStep {entry : K × Int} (h : Tracked s events)
    (hs : notifyStep logic e s entry = some (s₁, o)) : Tracked s₁ (events ++ o) := by
  obtain ⟨l, -, hs⟩ := Option.bind_eq_some_iff.mp hs
  rcases hl : logic.onNotify l entry.2 with ⟨l', emit, isComplete⟩
  rw [hl] at hs
  simp only [pure, Option.some.injEq, Prod.mk.injEq] at hs
  obtain ⟨rfl, rfl⟩ := hs
  refine h.step rfl fun k => ?_
  cases isComplete with
  | discard =>
    simp only [logicAfter, TreeMap.mem_erase, ← h.hasLogic k]
    by_cases hk : entry.1 = k <;> simp [hk]
  | retain =>
    simp only [logicAfter, TreeMap.mem_insert, ← h.hasLogic k]
    by_cases hk : entry.1 = k <;> simp [hk]

theorem Tracked.run {ι : Type} {is : List ι}
    {step : UnaryKeys K L → ι → Option (UnaryKeys K L × List (UnaryEvent K V W S))}
    (hstep : ∀ {s events i s₁ o}, Tracked s events → step s i = some (s₁, o) →
      Tracked s₁ (events ++ o))
    (h : Tracked s events) (hr : Runs.run step s is = some (s₁, o)) : Tracked s₁ (events ++ o) := by
  refine Runs.run_history (P := fun _ s₁ o => Tracked s₁ (events ++ o)) (Q := fun _ _ => True)
    (fun is t p i t₁ p₁ hp _ hs => ?_) (by simpa using h) (Runs.along_true _ _) hr
  rw [← List.append_assoc]
  exact hstep hp hs

variable (logic now e) in
theorem Tracked.loads (h : Tracked s events) (loads : List (K × StateChange S)) :
    Tracked (loads.foldl (applyLoad logic now) s)
      (events ++ loads.map fun l => .load e l.1 l.2) := by
  induction loads generalizing s events with
  | nil => simpa using h
  | cons load loads ih =>
    have hone : Tracked (applyLoad logic now s load) (events ++ [.load e load.1 load.2]) := by
      obtain ⟨k₀, change⟩ := load
      refine h.step rfl fun k => ?_
      cases change with
      | upsert state =>
        show _ ↔ k ∈ s.logics.insert k₀ _
        simp only [logicAfter, TreeMap.mem_insert, ← h.hasLogic k]
        by_cases hk : k₀ = k <;> simp [hk]
      | discard =>
        show _ ↔ k ∈ s.logics.erase k₀
        simp only [logicAfter, TreeMap.mem_erase, ← h.hasLogic k]
        by_cases hk : k₀ = k <;> simp [hk]
    simpa using ih hone

variable (logic e) in
theorem Tracked.snapshots (h : Tracked s events) (t : UnaryKeys K L) :
    Tracked s (events ++ snapshots logic e t) := by
  refine ⟨fun k => ?_, fun x hx => ?_⟩
  · rw [← h.hasLogic k, hasLogic_append fun x hx => ?_]
    obtain ⟨k', -, rfl⟩ := mem_snapshots.mp hx
    rfl
  · rcases List.mem_append.mp hx with hx | hx
    · exact h.onEof x hx
    · obtain ⟨k', -, rfl⟩ := mem_snapshots.mp hx
      rfl

/-! ### One epoch -/

theorem isEmpty_of_getElem? (h : ∀ k : K, s.logics[k]? = none) : s.logics.isEmpty = true := by
  rw [TreeMap.isEmpty_iff_forall_not_mem]
  intro k hk
  rw [← TreeMap.isSome_getElem?_iff_mem, h k] at hk
  exact absurd hk (by simp)

/-- Without logics, no notification is due. -/
theorem notifyKeys_eq_nil (hb : Backed s) (h : s.logics.isEmpty = true) :
    notifyKeys now s = [] := by
  refine List.eq_nil_iff_forall_not_mem.mpr fun entry hentry => ?_
  have hmem : entry.1 ∈ s.schedCache :=
    TreeMap.isSome_getElem?_iff_mem.mp (by rw [(mem_notifyKeys.mp hentry).1]; rfl)
  exact TreeMap.isEmpty_iff_forall_not_mem.mp h entry.1 (hb entry.1 hmem)

/-- The calls of an epoch are tracked if the end of the input has no logic to call. -/
theorem Tracked.callPhases {eof : Bool} {items : List (K × V)} (h : Tracked s events)
    (hb : Backed s)
    (hnone : eof = true → ∀ k, (feed logic now s.logics[k]? (Keyed.valuesOf k items)).1 = none)
    (hs : callPhases logic now eof e items s = some (s₁, o)) :
    Tracked s₁ (events ++ o) ∧ (eof = true → ∀ k : K, s₁.logics[k]? = none) := by
  obtain ⟨t₁, o₁, t₂, o₂, t₃, o₃, h₁, h₂, h₃, rfl, rfl⟩ := callPhases_eq_some.mp hs
  have ht₂ : Tracked t₂ (events ++ o₁ ++ o₂) :=
    (h.run Tracked.itemStep h₁).run Tracked.notifyStep h₂
  cases eof with
  | false =>
    simp only [eofPhase, Bool.false_eq_true, if_false, Option.some.injEq, Prod.mk.injEq] at h₃
    obtain ⟨rfl, rfl⟩ := h₃
    refine ⟨?_, by simp⟩
    simpa using ht₂.congr updateSched_logics
  | true =>
    have hempty : ∀ k : K, t₁.logics[k]? = none := fun k => by
      rw [(run_itemStep_key h₁ k).1, hnone rfl k]
    rw [notifyKeys_eq_nil (run_itemStep_backed hb h₁) (isEmpty_of_getElem? hempty)] at h₂
    simp only [Runs.run_nil, Option.some.injEq, Prod.mk.injEq] at h₂
    obtain ⟨rfl, rfl⟩ := h₂
    rw [eofPhase_of_isEmpty (isEmpty_of_getElem? hempty)] at h₃
    simp only [Option.some.injEq, Prod.mk.injEq] at h₃
    obtain ⟨rfl, rfl⟩ := h₃
    refine ⟨?_, fun _ => hempty⟩
    simpa using ht₂.congr updateSched_logics

/-- An epoch is tracked if the end of the input has no logic to call. -/
theorem Tracked.processEpoch {s s₁ : UnaryState K V S L} (h : Tracked s.keys events)
    (hb : Backed s.keys)
    (hnone : f.isEof = true → ∀ k,
      (feed logic now s.keys.logics[k]? (Keyed.valuesOf k (s.inbuf.getD e []))).1 = none)
    (hs : processEpoch logic now f s e = some (s₁, o)) :
    Tracked s₁.keys (events ++ o) ∧ (f.isEof = true → ∀ k, s₁.keys.logics[k]? =
      loadAll logic now none (Keyed.valuesOf k (s.loadsInbuf.getD e []))) := by
  obtain ⟨-, keys, called, hcall, hcase⟩ := processEpoch_eq_some.mp hs
  obtain ⟨ht, hempty⟩ := h.callPhases hb hnone hcall
  rcases hcase with ⟨-, rfl, rfl⟩ | ⟨hopen, rfl, rfl⟩
  · constructor
    · have hsnaps : Tracked { keys with awokenKeysBuffer := ∅ }
          (events ++ called ++ Unary.snapshots logic e keys) :=
        (ht.snapshots logic e keys).congr rfl
      simpa using hsnaps.loads logic e now (s.loadsInbuf.getD e [])
    · intro heof k
      rw [foldl_applyLoad_key, hempty heof k]
  · refine ⟨ht, fun heof => absurd (fun t ht => ?_) hopen⟩
    rw [Frontier.isEof, Option.isNone_iff_eq_none] at heof
    rw [heof] at ht
    exact absurd ht (by simp)

/-! ### The last epoch -/

theorem run_eofStep_events {entries : List (K × L)}
    (hr : Runs.run (eofStep logic e) s entries = some (s₁, o)) :
    o = entries.map fun entry =>
      .onEof e entry.1 (logic.onEof entry.2).2.1 (logic.onEof entry.2).2.2 := by
  induction entries generalizing s o with
  | nil =>
    simp only [Runs.run_nil, Option.some.injEq, Prod.mk.injEq] at hr
    exact hr.2.symm
  | cons entry entries ih =>
    obtain ⟨t, o₁, o₂, hs, hrest, rfl⟩ := Runs.exists_of_run_cons hr
    simp only [eofStep, Option.some.injEq, Prod.mk.injEq] at hs
    rw [← hs.2, ih hrest]
    rfl

/-- A notification makes no new logic. -/
theorem run_notifyStep_mem {entries : List (K × Int)}
    (hr : Runs.run (notifyStep logic e) s entries = some (s₁, o)) :
    ∀ k ∈ s₁.logics, k ∈ s.logics := by
  refine Runs.run_induct (P := fun t => ∀ k ∈ t.logics, k ∈ s.logics) (Q := fun _ _ => True)
    (fun t entry t₁ o₁ ht _ hs => ?_) (fun k hk => hk) (Runs.along_true _ _) hr
  obtain ⟨l, hl, hs⟩ := Option.bind_eq_some_iff.mp hs
  rcases hn : logic.onNotify l entry.2 with ⟨l', emit, isComplete⟩
  rw [hn] at hs
  simp only [pure, Option.some.injEq, Prod.mk.injEq] at hs
  obtain ⟨rfl, -⟩ := hs
  intro k hk
  cases isComplete with
  | discard => exact ht k (TreeMap.mem_erase.mp hk).2
  | retain =>
    rcases TreeMap.mem_insert.mp hk with hk | hk
    · rw [← Std.LawfulEqCmp.compare_eq_iff_eq.mp hk]
      exact ht _ (TreeMap.isSome_getElem?_iff_mem.mp (by rw [hl]; rfl))
    · exact ht k hk

/-- What may follow the `on_eof` calls of the last epoch, when `t` has the logics called. -/
structure AfterEof (t : UnaryKeys K L) (events : List (UnaryEvent K V W S))
    (x : UnaryEvent K V W S) : Prop where
  onEof : x.isOnEof = false
  onItem : x.isOnItem = false
  load : x.isLoad = true → x.key ∉ t.logics
  hasLogic : ∀ k, logicAfter k (HasLogic k events) x = HasLogic k events

theorem Tracked.eofLast {t : UnaryKeys K L} {onEofs tail : List (UnaryEvent K V W S)}
    (h : Tracked t events)
    (honEof : ∀ x ∈ onEofs, x.isOnEof = true ∧ x.key ∈ t.logics)
    (htail : ∀ x ∈ tail, AfterEof t events x) : EofLast (events ++ (onEofs ++ tail)) := by
  have hvac : ∀ {x}, x ∈ events → ∀ {p : Prop}, x.isOnEof = true → p := by
    intro x hx p hx'
    rw [h.onEof x hx] at hx'
    exact absurd hx' (by simp)
  constructor
  · refine List.pairwise_append.mpr ⟨List.pairwise_of_forall_mem_list fun x hx _ _ => hvac hx,
      List.pairwise_of_forall_mem_list fun _ _ y hy _ => ?_, fun x hx _ _ => hvac hx⟩
    rcases List.mem_append.mp hy with hy | hy
    · exact (UnaryEvent.of_isOnEof (honEof y hy).1).1
    · exact (htail y hy).onItem
  · refine List.pairwise_append.mpr ⟨List.pairwise_of_forall_mem_list fun x hx _ _ => hvac hx,
      List.pairwise_of_forall_mem_list fun x hx y hy hxe hyl => ?_, fun x hx _ _ => hvac hx⟩
    have hxk : x.key ∈ t.logics := by
      rcases List.mem_append.mp hx with hx | hx
      · exact (honEof x hx).2
      · rw [(htail x hx).onEof] at hxe
        exact absurd hxe (by simp)
    have hyk : y.key ∉ t.logics := by
      rcases List.mem_append.mp hy with hy | hy
      · rw [(UnaryEvent.of_isOnEof (honEof y hy).1).2] at hyl
        exact absurd hyl (by simp)
      · exact (htail y hy).load hyl
    exact fun he => hyk (he ▸ hxk)

theorem Tracked.eofOnce {t : UnaryKeys K L} {onEofs tail : List (UnaryEvent K V W S)}
    (h : Tracked t events)
    (honEofs : onEofs = t.logics.toList.map fun entry =>
      .onEof e entry.1 (logic.onEof entry.2).2.1 (logic.onEof entry.2).2.2)
    (htail : ∀ x ∈ tail, AfterEof t events x) : EofOnce (events ++ (onEofs ++ tail)) := by
  intro k
  have hlogic : HasLogic k (events ++ (onEofs ++ tail)) = HasLogic k events := by
    refine hasLogic_append fun x hx => ?_
    rcases List.mem_append.mp hx with hx | hx
    · rw [honEofs] at hx
      obtain ⟨entry, -, rfl⟩ := List.mem_map.mp hx
      rfl
    · exact (htail x hx).hasLogic k
  have hevents : events.filter (fun x => x.isOnEof = true ∧ x.key = k) = [] :=
    List.filter_eq_nil_iff.mpr fun x hx => by simp [h.onEof x hx]
  have htail' : tail.filter (fun x => x.isOnEof = true ∧ x.key = k) = [] :=
    List.filter_eq_nil_iff.mpr fun x hx => by simp [(htail x hx).onEof]
  have hpair : t.logics.toList.Pairwise fun x y => x.1 ≠ y.1 :=
    TreeMap.distinct_keys_toList.imp fun hne he => hne (by simp [he])
  rw [hlogic, List.filter_append, List.filter_append, hevents, htail', List.nil_append,
    List.append_nil, honEofs, List.filter_map, List.length_map]
  calc (t.logics.toList.filter _).length
      = (t.logics.toList.filter fun p => p.1 = k).length := by
        simp [Function.comp_def, UnaryEvent.isOnEof, UnaryEvent.key]
    _ = if k ∈ t.logics.toList.map Prod.fst then 1 else 0 := Keyed.length_filter_key k hpair
    _ = if HasLogic k events = true then 1 else 0 := by
        refine if_congr ?_ rfl rfl
        rw [h.hasLogic k, TreeMap.map_fst_toList_eq_keys, TreeMap.mem_keys]

/-- **In the last epoch**, `on_eof` is called for the logics that are left, and nothing of the
input comes after. -/
theorem Tracked.processEpoch_last {s s₁ : UnaryState K V S L} (h : Tracked s.keys events)
    (hset : ∀ k, ∀ change ∈ Keyed.valuesOf k (s.loadsInbuf.getD e []), change = .discard ∧
      (feed logic now s.keys.logics[k]? (Keyed.valuesOf k (s.inbuf.getD e []))).1 = none)
    (hs : Unary.processEpoch logic now none s e = some (s₁, o)) :
    EofLast (events ++ o) ∧ EofOnce (events ++ o) := by
  obtain ⟨-, keys, called, hcall, ⟨-, rfl, rfl⟩ | ⟨hopen, -, -⟩⟩ := processEpoch_eq_some.mp hs
  swap
  · exact absurd Frontier.isClosed_none hopen
  obtain ⟨t₁, o₁, t₂, o₂, t₃, o₃, h₁, h₂, h₃, rfl, rfl⟩ := callPhases_eq_some.mp hcall
  have ht₂ : Tracked t₂ (events ++ o₁ ++ o₂) :=
    (h.run Tracked.itemStep h₁).run Tracked.notifyStep h₂
  obtain ⟨t, onEofs, hr⟩ := run_eofStep logic e t₂ t₂.logics.toList
  have honEofs := run_eofStep_events hr
  have heof : eofPhase logic true e t₂ = some (t₃, o₃) := h₃
  rw [eofPhase_true hr] at heof
  simp only [Option.some.injEq, Prod.mk.injEq] at heof
  obtain ⟨-, rfl⟩ := heof
  have htail : ∀ x ∈ Unary.snapshots logic e (updateSched logic t₃) ++
      (s.loadsInbuf.getD e []).map (fun l => (.load e l.1 l.2 : UnaryEvent K V W S)),
      AfterEof t₂ (events ++ o₁ ++ o₂) x := by
    intro x hx
    rcases List.mem_append.mp hx with hx | hx
    · obtain ⟨k, -, rfl⟩ := mem_snapshots.mp hx
      exact ⟨rfl, rfl, nofun, fun _ => rfl⟩
    · obtain ⟨⟨k, change⟩, hl, rfl⟩ := List.mem_map.mp hx
      obtain ⟨rfl, hnone⟩ := hset k change (Keyed.mem_valuesOf.mpr hl)
      have hnot : k ∉ t₂.logics := by
        intro hk
        have := TreeMap.isSome_getElem?_iff_mem.mpr (run_notifyStep_mem h₂ k hk)
        rw [(run_itemStep_key h₁ k).1, hnone] at this
        exact absurd this (by simp)
      refine ⟨rfl, rfl, fun _ => hnot, fun k' => ?_⟩
      by_cases hk : k = k'
      · subst hk
        have hfalse : HasLogic k (events ++ o₁ ++ o₂) = false :=
          Bool.eq_false_iff.mpr fun htrue => hnot ((ht₂.hasLogic k).mp htrue)
        rw [hfalse]
        simp [logicAfter]
      · simp [logicAfter, hk]
  have hkeys : ∀ x ∈ onEofs, x.isOnEof = true ∧ x.key ∈ t₂.logics := by
    intro x hx
    rw [honEofs] at hx
    obtain ⟨entry, hentry, rfl⟩ := List.mem_map.mp hx
    refine ⟨rfl, TreeMap.isSome_getElem?_iff_mem.mp ?_⟩
    rw [show (UnaryEvent.onEof e entry.1 _ _ : UnaryEvent K V W S).key = entry.1 from rfl,
      TreeMap.mem_toList_iff_getElem?_eq_some.mp hentry]
    rfl
  have hlast := ht₂.eofLast hkeys htail
  have honce := ht₂.eofOnce honEofs htail
  simp only [List.append_assoc] at hlast honce ⊢
  exact ⟨hlast, honce⟩

/-! ### One activation -/

variable (logic now) in
/-- The outstanding epochs at the end of the inputs. -/
theorem run_processEpoch_eof {es : List Nat} {s : UnaryState K V S L} (hne : es ≠ [])
    (hl : Looping none s es) (h : Tracked s.keys events)
    (hset : ∀ k, SettledEpochs logic now (fun e => Keyed.valuesOf k (s.inbuf.getD e []))
      (fun e => Keyed.valuesOf k (s.loadsInbuf.getD e [])) s.keys.logics[k]? es) :
    ∃ s₁ o, Runs.run (processEpoch logic now none) s es = some (s₁, o) ∧
      EofLast (events ++ o) ∧ EofOnce (events ++ o) := by
  induction es generalizing s events with
  | nil => exact absurd rfl hne
  | cons e es ih =>
    obtain ⟨s₁, o₁, hs, hl₁⟩ := processEpoch_looping logic now hl
    cases es with
    | nil =>
      refine ⟨s₁, o₁, ?_, h.processEpoch_last hset hs⟩
      rw [Runs.run_singleton, hs]
    | cons e' es =>
      obtain ⟨h₁, hkeys⟩ := h.processEpoch hl.backed (fun _ k => (hset k).1) hs
      have hbufs : s₁.inbuf = s.inbuf.erase e ∧ s₁.loadsInbuf = s.loadsInbuf.erase e := by
        obtain ⟨-, keys, called, -, ⟨-, rfl, -⟩ | ⟨hopen, -, -⟩⟩ := processEpoch_eq_some.mp hs
        · exact ⟨rfl, rfl⟩
        · exact absurd Frontier.isClosed_none hopen
      have hlater : ∀ x ∈ e' :: es, compare e x ≠ .eq := fun x hx hc =>
        ((List.pairwise_cons.mp hl.sorted).1 x hx).ne (Std.LawfulEqCmp.compare_eq_iff_eq.mp hc)
      have hset₁ : ∀ k, SettledEpochs logic now
          (fun e => Keyed.valuesOf k (s₁.inbuf.getD e []))
          (fun e => Keyed.valuesOf k (s₁.loadsInbuf.getD e [])) s₁.keys.logics[k]? (e' :: es) := by
        intro k
        rw [hkeys rfl k]
        refine (settledEpochs_congr (fun x hx => ?_) fun x hx => ?_).mpr (hset k).2
        · rw [hbufs.1, TreeMap.getD_erase, if_neg (hlater x hx)]
        · rw [hbufs.2, TreeMap.getD_erase, if_neg (hlater x hx)]
      obtain ⟨s₂, o₂, hr, hlast, honce⟩ := ih (by simp) hl₁ h₁ hset₁
      rw [List.append_assoc] at hlast honce
      exact ⟨s₂, o₁ ++ o₂, Runs.run_cons hs hr, hlast, honce⟩

variable (logic now) in
/-- The epochs of an activation before the end of the inputs. -/
theorem run_processEpoch_tracked {es : List Nat} {s : UnaryState K V S L}
    (hf : f.isEof = false) (hl : Looping f s es) (h : Tracked s.keys events) :
    ∃ s₁ o, Runs.run (processEpoch logic now f) s es = some (s₁, o) ∧ Looping f s₁ [] ∧
      Tracked s₁.keys (events ++ o) := by
  obtain ⟨s₁, o, hr, hl₁, h₁⟩ := Runs.run_total_from (processEpoch logic now f)
    (Q := fun _ _ => True)
    (P := fun o (s : UnaryState K V S L) rest => Looping f s rest ∧ Tracked s.keys (events ++ o))
    (fun o s e rest ⟨hl, h⟩ _ => by
      obtain ⟨s₁, o₁, hs, hl₁⟩ := processEpoch_looping logic now hl
      have h₁ := (h.processEpoch hl.backed (by simp [hf]) hs).1
      rw [List.append_assoc] at h₁
      exact ⟨s₁, o₁, hs, hl₁, h₁⟩)
    ⟨hl, by simpa using h⟩ (Runs.along_true _ _)
  exact ⟨s₁, o, hr, hl₁, h₁⟩

/-! ### Schedules -/

/-- Before the end of the inputs the events are tracked; after it, each logic has been called. -/
def Signalled (s : UnaryState K V S L) (events : List (UnaryEvent K V W S)) : Prop :=
  (s.cap ≠ none → Tracked s.keys events) ∧
    (s.cap = none → EofLast events ∧ EofOnce events)

/-- One activation, with the outstanding epochs settled if it sees the end of the inputs. -/
theorem activate_signalled {s : UnaryState K V S L} {a : Activation K V S} {fi fl : Frontier}
    (hr : Ready (fi.both fl) s) (ha : Follows fi fl a) (h : Signalled s events)
    (hset : Settled logic resumeEpoch s a) :
    ∃ s₁ o, activate logic resumeEpoch s a = some (s₁, o) ∧ Ready a.frontier s₁ ∧
      Signalled s₁ (events ++ o) := by
  obtain ⟨s₁, o, hs, hr₁⟩ := activate_ready logic resumeEpoch hr ha
  refine ⟨s₁, o, hs, hr₁, ?_⟩
  cases hcap : s.cap with
  | none =>
    rw [activate_none hcap] at hs
    simp only [Option.some.injEq, Prod.mk.injEq] at hs
    obtain ⟨rfl, rfl⟩ := hs
    simpa using h
  | some c =>
    have hl := looping_buffered resumeEpoch hr ha hcap
    have ht : Tracked (buffered s a).keys events := h.1 (by simp [hcap])
    cases hf : a.frontier with
    | none =>
      have hne : epochsOf resumeEpoch c s a ≠ [] := by
        refine List.ne_nil_of_mem (a := c) (mem_processEpochs.mpr (.inl ⟨.inl rfl, ?_⟩))
        rw [hf]
        exact Frontier.isClosed_none
      rw [hf] at hl
      obtain ⟨s₂, o₂, hrun, hlast, honce⟩ :=
        run_processEpoch_eof logic a.now hne hl ht (hset hf c (by simp [hcap]))
      rw [activate_some hcap, hf, hrun, Option.map_some] at hs
      simp only [Option.some.injEq, Prod.mk.injEq] at hs
      obtain ⟨rfl, rfl⟩ := hs
      exact ⟨fun hc => absurd (by simp [finished, hf, Frontier.isEof]) hc, fun _ => ⟨hlast, honce⟩⟩
    | some t =>
      obtain ⟨s₂, o₂, hrun, -, ht₂⟩ := run_processEpoch_tracked logic a.now
        (by simp [hf, Frontier.isEof]) hl ht
      rw [activate_some hcap, hrun, Option.map_some] at hs
      simp only [Option.some.injEq, Prod.mk.injEq] at hs
      obtain ⟨rfl, rfl⟩ := hs
      have hcap₂ : (finished resumeEpoch a s₂).cap ≠ none := by
        rw [Ne, hr₁.cap_eq_none, hf]
        simp
      exact ⟨fun _ => ht₂, fun hc => absurd hc hcap₂⟩

/-- In the run of a schedule, no item and no load of the key follows an `on_eof` call, and if the
inputs have ended each logic has been called once. -/
def SignalsEof (logic : UnaryLogic V W S L) (resumeEpoch : Nat) (as : List (Activation K V S)) :
    Prop :=
  ∃ s events, Runs.run (activate logic resumeEpoch) init as = some (s, events) ∧
    EofLast events ∧ ((∃ a ∈ as, a.frontier = none) → EofOnce events)

theorem Signalled.eofLast {s : UnaryState K V S L} (h : Signalled s events) : EofLast events := by
  by_cases hcap : s.cap = none
  · exact (h.2 hcap).1
  · have hvac : ∀ {x}, x ∈ events → ∀ {p : Prop}, x.isOnEof = true → p := by
      intro x hx p hx'
      rw [(h.1 hcap).onEof x hx] at hx'
      exact absurd hx' (by simp)
    exact ⟨List.pairwise_of_forall_mem_list fun x hx _ _ => hvac hx,
      List.pairwise_of_forall_mem_list fun x hx _ _ => hvac hx⟩

/-- **The end of the input is signalled once and last** in every run in which the outstanding
epochs are settled when the inputs end. -/
theorem signalsEof_of_settled {as : List (Activation K V S)} (has : Schedule (some 0) (some 0) as)
    (hset : Runs.Along (activate logic resumeEpoch) (Settled logic resumeEpoch) init as) :
    SignalsEof logic resumeEpoch as := by
  obtain ⟨s, events, hr, -, h, hend⟩ := Runs.run_total_from (activate logic resumeEpoch)
    (Q := Settled logic resumeEpoch)
    (P := fun events s rest => (∃ fi fl, Ready (fi.both fl) s ∧ Schedule fi fl rest) ∧
      Signalled s events ∧
      ((∃ a ∈ as, a.frontier = none) → s.cap = none ∨ ∃ a ∈ rest, a.frontier = none))
    (fun events s a rest ⟨⟨fi, fl, hr, ha, hrest⟩, h, hend⟩ hs => by
      obtain ⟨s₁, o, hact, hr₁, h₁⟩ := activate_signalled hr ha h hs
      refine ⟨s₁, o, hact, ⟨a.itemsFrontier, a.loadsFrontier, hr₁, hrest⟩, h₁, fun hex => ?_⟩
      rcases hend hex with hcap | ⟨b, hb, hbf⟩
      · rw [activate_none hcap] at hact
        simp only [Option.some.injEq, Prod.mk.injEq] at hact
        exact .inl (hact.1 ▸ hcap)
      · rcases List.mem_cons.mp hb with rfl | hb
        · exact .inl (hr₁.cap_eq_none.mpr hbf)
        · exact .inr ⟨b, hb, hbf⟩)
    ⟨⟨some 0, some 0, ready_init, has⟩,
      ⟨fun _ => ⟨fun k => by simp [HasLogic, init], by simp⟩, fun hc => absurd hc (by simp [init])⟩,
      fun hex => .inr hex⟩ hset
  refine ⟨s, events, hr, h.eofLast, fun hex => ?_⟩
  rcases hend hex with hcap | ⟨b, hb, -⟩
  · exact (h.2 hcap).2
  · exact absurd hb (by simp)

/-! ### Several epochs outstanding at the end of the input -/

/-- A logic that adds up its values and emits the sum at the end of the input. -/
def sumFinal : UnaryLogic Int Int Int Int where
  builder _ resumeState := resumeState.getD 0
  onItem l _ value := (l + value, [], .retain)
  onNotify l _ := (l, [], .retain)
  onEof l := (l, [l], .discard)
  notifyAt _ := none
  snapshot l := l

/-- Values arrive when epoch 1 is open. -/
def sumItems (items : List (Nat × List (Nat × Int))) : Activation Nat Int Int where
  now := 0
  items := items
  loads := []
  itemsFrontier := some 1
  loadsFrontier := none

/-- The input ends. -/
def sumEnd : Activation Nat Int Int where
  now := 0
  items := []
  loads := []
  itemsFrontier := none
  loadsFrontier := none

theorem schedule_sumItems (items : List (Nat × List (Nat × Int))) :
    Schedule (some 0) (some 0) [sumItems items, sumEnd] := by
  refine ⟨⟨fun b _ => ⟨0, rfl, Nat.zero_le _⟩, List.forall_mem_nil _, ?_, ?_⟩,
    ⟨List.forall_mem_nil _, List.forall_mem_nil _, ?_, ?_⟩, trivial⟩
  · rintro t ⟨⟩
    exact ⟨0, rfl, by decide⟩
  · rintro t ⟨⟩
  · rintro t ⟨⟩
  · rintro t ⟨⟩

/-- With all values in the epoch that is open, nothing is outstanding when the input ends. -/
theorem signalsEof_of_settled_one_epoch :
    SignalsEof sumFinal 1 [sumItems [(1, [(0, 5), (0, 7)])], sumEnd] := by
  refine signalsEof_of_settled (schedule_sumItems _)
    ⟨fun hf => absurd hf (by decide), fun s₁ o₁ hs => ⟨fun _ c hc k => ?_, fun _ _ _ => trivial⟩⟩
  have hstate : (activate sumFinal 1 init (sumItems [(1, [(0, 5), (0, 7)])])).map (fun p =>
      (p.1.cap, epochsOf 1 1 p.1 sumEnd, p.1.loadsInbuf.getD 1 [])) =
      some (some 1, [1], []) := by decide +kernel
  rw [hs] at hstate
  simp only [Option.map_some, Option.some.injEq, Prod.mk.injEq] at hstate
  obtain ⟨hcap, hepochs, hloads⟩ := hstate
  obtain rfl : 1 = c := Option.some.inj (hcap.symm.trans hc)
  rw [hepochs]
  show ∀ change ∈ Keyed.valuesOf k (s₁.loadsInbuf.getD 1 []), _
  rw [hloads]
  simp

/-- With a value in the epoch after the open one, the logic is told twice that the input has ended,
once before its second value. -/
theorem not_signalsEof_of_two_epochs :
    Schedule (some 0) (some 0) [sumItems [(1, [(0, 5)]), (2, [(0, 7)])], sumEnd] ∧
      ¬ SignalsEof sumFinal 1 [sumItems [(1, [(0, 5)]), (2, [(0, 7)])], sumEnd] := by
  refine ⟨schedule_sumItems _, ?_⟩
  rintro ⟨s, events, hr, -, honce⟩
  have hev : (Runs.run (activate sumFinal 1) init
      [sumItems [(1, [(0, 5)]), (2, [(0, 7)])], sumEnd]).map
      Prod.snd = some [.onItem 1 0 5 [] .retain, .onEof 1 0 [5] .discard, .snap 1 0 .discard,
        .onItem 2 0 7 [] .retain, .onEof 2 0 [7] .discard, .snap 2 0 .discard] := by
    decide +kernel
  rw [hr] at hev
  obtain rfl : events = _ := Option.some.inj hev
  exact absurd (honce ⟨sumEnd, by simp, rfl⟩ 0) (by decide)

end Unary
end Bytewax
