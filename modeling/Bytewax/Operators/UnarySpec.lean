import Bytewax.Operators.UnaryKeyed

/-!
# Bytewax.Operators.UnarySpec — what a run computes, epoch by epoch and key by key

For logics that do not read the clock and never ask to be notified, and as long as the inputs have
not ended, the operator computes the same whatever the schedule: the values of a key in epoch 0, the
loads of epoch 0, the values of epoch 1, and so on (`stateAt`).  A state of the operator is at a
`Position`: the epochs before it are over, and of the epoch itself some values have been run.  Going
through an epoch moves the position, and an epoch in which nothing arrives is skipped.
-/

namespace Bytewax

open Std (TreeMap TreeSet)

/-- The builder and `on_item` do not depend on the time they are given. -/
structure UnaryLogic.ReadsNoClock {V W S L : Type} (logic : UnaryLogic V W S L) : Prop where
  builder : ∀ now now' resumeState, logic.builder now resumeState = logic.builder now' resumeState
  onItem : ∀ l now now' value, logic.onItem l now value = logic.onItem l now' value

/-- `notify_at` is always `None`. -/
def UnaryLogic.NeverNotifies {V W S L : Type} (logic : UnaryLogic V W S L) : Prop :=
  ∀ l, logic.notifyAt l = none

namespace Unary

variable {K V W S L : Type}

section Spec

variable (logic : UnaryLogic V W S L) (items : Nat → K → List V)
  (loads : Nat → K → List (StateChange S))

/-- The logic of a key at the start of an epoch. -/
def stateAt : Nat → K → Option L
  | 0, _ => none
  | e + 1, k => loadAll logic 0 (feed logic 0 (stateAt e k) (items e k)).1 (loads e k)

/-- What is sent downstream for a key in an epoch. -/
def specItems (e : Nat) (k : K) : List W :=
  (feed logic 0 (stateAt logic items loads e k) (items e k)).2

/-- What is sent to recovery for a key when an epoch is over. -/
def specSnaps (e : Nat) (k : K) : List (StateChange S) :=
  if items e k = [] then []
  else [changeOf logic (feed logic 0 (stateAt logic items loads e k) (items e k)).1]

end Spec

variable {logic : UnaryLogic V W S L} {now : Int} {e : Nat} {f : Frontier}

theorem feed_clock (h : logic.ReadsNoClock) (now now' : Int) (l : Option L) (vs : List V) :
    feed logic now l vs = feed logic now' l vs := by
  induction vs generalizing l with
  | nil => rfl
  | cons v vs ih =>
    have hcall : callItem logic now l v = callItem logic now' l v := by
      rw [callItem, callItem, h.builder now now' none, h.onItem _ now now' v]
    rw [feed, feed, hcall, ih]

theorem loadAll_clock (h : logic.ReadsNoClock) (now now' : Int) (l : Option L)
    (changes : List (StateChange S)) : loadAll logic now l changes = loadAll logic now' l changes := by
  have hone : loadOne logic now = loadOne logic now' := by
    ext l change
    cases change with
    | upsert state => rw [loadOne, loadOne, h.builder now now']
    | discard => rfl
  rw [loadAll, loadAll, hone]

theorem stateAt_congr {items items' : Nat → K → List V} {loads loads' : Nat → K → List (StateChange S)}
    {k : K} (hi : ∀ x < e, items x k = items' x k) (hl : ∀ x < e, loads x k = loads' x k) :
    stateAt logic items loads e k = stateAt logic items' loads' e k := by
  induction e with
  | zero => rfl
  | succ e ih =>
    rw [stateAt, stateAt, hi e (by omega), hl e (by omega),
      ih (fun x hx => hi x (by omega)) fun x hx => hl x (by omega)]

/-! ### The effect of one epoch -/

variable [LinearOrder K] {s s₁ : UnaryKeys K L} {o events : List (UnaryEvent K V W S)}

theorem updateSched_of_never (h : logic.NeverNotifies) (s : UnaryKeys K L) :
    updateSched logic s = s := by
  have hnote : ∀ (cache : TreeMap K Int) (k : K), noteSched logic s.logics cache k = cache := by
    intro cache k
    have hnone : s.logics[k]?.bind logic.notifyAt = none := by
      cases s.logics[k]? with
      | none => rfl
      | some l => exact h l
    rw [noteSched, hnone]
  have hfold : ∀ (keys : List K) (cache : TreeMap K Int),
      keys.foldl (noteSched logic s.logics) cache = cache := by
    intro keys
    induction keys with
    | nil => exact fun cache => rfl
    | cons k keys ih =>
      intro cache
      rw [List.foldl_cons, hnote, ih]
  rw [updateSched, hfold]

theorem run_itemStep_keys {items : List (K × V)}
    (h : Runs.run (itemStep logic now e) s items = some (s₁, o)) :
    o.map UnaryEvent.key = items.map Prod.fst ∧ (∀ x ∈ o, x.change = []) ∧
      (s.schedCache.isEmpty = true → s₁.schedCache.isEmpty = true) := by
  refine Runs.run_history (P := fun items s₁ o => o.map UnaryEvent.key = items.map Prod.fst ∧
      (∀ x ∈ o, x.change = []) ∧ (s.schedCache.isEmpty = true → s₁.schedCache.isEmpty = true))
    (Q := fun _ _ => True) ?_ ⟨rfl, by simp, id⟩ (Runs.along_true _ _) h
  rintro items t o item t₁ o₁ ⟨hk, hc, hs⟩ - ht
  rcases hl : logic.onItem (t.logics.getD item.1 (logic.builder now none)) now item.2 with
    ⟨l, emit, isComplete⟩
  rw [itemStep, hl] at ht
  simp only [Option.some.injEq, Prod.mk.injEq] at ht
  obtain ⟨rfl, rfl⟩ := ht
  refine ⟨by simp [hk, UnaryEvent.key], ?_, fun hempty => ?_⟩
  · intro x hx
    rcases List.mem_append.mp hx with hx | hx
    · exact hc x hx
    · rw [List.mem_singleton.mp hx]
      rfl
  · cases isComplete with
    | discard =>
      show (t.schedCache.erase item.1).isEmpty = true
      rw [TreeMap.isEmpty_erase, hs hempty]
      rfl
    | retain => exact hs hempty

theorem snapsOf_eq_nil_of_change {k : K} (h : ∀ x ∈ o, x.change = []) : snapsOf e k o = [] := by
  refine List.flatMap_eq_nil_iff.mpr fun x hx => ?_
  split
  · exact h x hx
  · rfl

theorem snapsOf_snapshots (s : UnaryKeys K L) (k : K) :
    snapsOf e k (snapshots logic e s) =
      if k ∈ s.awokenKeysBuffer then [changeOf logic s.logics[k]?] else [] := by
  have hnodup : s.awokenKeysBuffer.toList.Nodup :=
    TreeSet.ordered_toList.imp fun hlt he => by simp [he] at hlt
  have hflat := Keyed.flatMap_ite_eq k (fun k => changeOf logic s.logics[k]?) hnodup
  simp only [TreeSet.mem_toList] at hflat
  rw [← hflat, snapsOf, snapshots, List.flatMap_map]
  simp [UnaryEvent.epoch, UnaryEvent.key, UnaryEvent.change]

theorem itemsOf_eq_nil_of_emit {k : K} (h : ∀ x ∈ o, x.emit = []) : itemsOf e k o = [] := by
  refine List.flatMap_eq_nil_iff.mpr fun x hx => ?_
  split
  · exact h x hx
  · rfl

/-- The closing of an epoch sends nothing downstream. -/
theorem emit_closed {loads : List (K × StateChange S)} : ∀ x ∈ snapshots logic e s ++
    loads.map (fun l => (.load e l.1 l.2 : UnaryEvent K V W S)), x.emit = [] := by
  intro x hx
  rcases List.mem_append.mp hx with hx | hx
  · obtain ⟨k, -, rfl⟩ := mem_snapshots.mp hx
    rfl
  · obtain ⟨l, -, rfl⟩ := List.mem_map.mp hx
    rfl

theorem foldl_applyLoad_sched (hn : logic.NeverNotifies) (loads : List (K × StateChange S))
    (h : s.schedCache.isEmpty = true) :
    (loads.foldl (applyLoad logic now) s).schedCache.isEmpty = true := by
  induction loads generalizing s with
  | nil => exact h
  | cons load loads ih =>
    refine ih ?_
    obtain ⟨k, change⟩ := load
    cases change with
    | upsert state =>
      have hnone : logic.notifyAt (logic.builder now (some state)) = none := hn _
      simp only [applyLoad, hnone]
      exact h
    | discard =>
      show (s.schedCache.erase k).isEmpty = true
      rw [TreeMap.isEmpty_erase, h]
      rfl

/-- What an epoch does as long as the inputs have not ended: `fed` are the logics with the items of
the epoch, and `woken` the keys to snapshot. -/
structure EpochEffect (logic : UnaryLogic V W S L) (f : Frontier) (e : Nat)
    (s s₁ : UnaryState K V S L) (o : List (UnaryEvent K V W S)) (fed : K → Option L)
    (woken : K → Prop) : Prop where
  cap : s₁.cap = some e
  inbuf : s₁.inbuf = s.inbuf.erase e
  sched : s₁.keys.schedCache.isEmpty = true
  fed_eq : ∀ k, fed k =
    (feed logic 0 s.keys.logics[k]? (Keyed.valuesOf k (s.inbuf.getD e []))).1
  woken_iff : ∀ k, woken k ↔
    k ∈ s.keys.awokenKeysBuffer ∨ Keyed.valuesOf k (s.inbuf.getD e []) ≠ []
  epoch : ∀ x ∈ o, x.epoch = e
  items : ∀ k, itemsOf e k o =
    (feed logic 0 s.keys.logics[k]? (Keyed.valuesOf k (s.inbuf.getD e []))).2
  isOpen : ¬ f.IsClosed e → s₁.loadsInbuf = s.loadsInbuf ∧
    (∀ k, s₁.keys.logics[k]? = fed k) ∧ (∀ k, k ∈ s₁.keys.awokenKeysBuffer ↔ woken k) ∧
    ∀ k, snapsOf e k o = []
  closed : f.IsClosed e → s₁.loadsInbuf = s.loadsInbuf.erase e ∧
    (∀ k, s₁.keys.logics[k]? =
      loadAll logic 0 (fed k) (Keyed.valuesOf k (s.loadsInbuf.getD e []))) ∧
    (∀ k, k ∉ s₁.keys.awokenKeysBuffer) ∧
    (∀ k, woken k → snapsOf e k o = [changeOf logic (fed k)]) ∧
    ∀ k, ¬ woken k → snapsOf e k o = []

theorem processEpoch_effect (hclock : logic.ReadsNoClock) (hnever : logic.NeverNotifies)
    {s s₁ : UnaryState K V S L} (hf : f.isEof = false) (hsched : s.keys.schedCache.isEmpty = true)
    (hs : processEpoch logic now f s e = some (s₁, o)) :
    ∃ fed woken, EpochEffect logic f e s s₁ o fed woken := by
  obtain ⟨-, keys, called, hcall, hcase⟩ := processEpoch_eq_some.mp hs
  have hwoken := callPhases_woken hcall
  obtain ⟨t₁, o₁, t₂, o₂, t₃, o₃, h₁, h₂, h₃, rfl, rfl⟩ := callPhases_eq_some.mp hcall
  obtain ⟨hkeys, hchange, hempty⟩ := run_itemStep_keys h₁
  -- nothing is scheduled and the inputs go on: only the items have an effect
  have hnil : notifyKeys now t₁ = [] := by
    have hlist : t₁.schedCache.toList = [] := by
      rw [← List.isEmpty_iff, TreeMap.isEmpty_toList]
      exact hempty hsched
    rw [notifyKeys, hlist]
    rfl
  rw [hnil] at h₂
  simp only [Runs.run_nil, Option.some.injEq, Prod.mk.injEq] at h₂
  obtain ⟨rfl, rfl⟩ := h₂
  rw [hf] at h₃
  simp only [eofPhase, Bool.false_eq_true, if_false, Option.some.injEq, Prod.mk.injEq] at h₃
  obtain ⟨rfl, rfl⟩ := h₃
  rw [updateSched_of_never hnever] at hwoken hcase
  simp only [List.append_nil] at hwoken hcase
  have hfed : ∀ k, t₁.logics[k]? =
      (feed logic 0 s.keys.logics[k]? (Keyed.valuesOf k (s.inbuf.getD e []))).1 := fun k => by
    rw [(run_itemStep_key h₁ k).1, feed_clock hclock now 0]
  have hitems : ∀ k, itemsOf e k o₁ =
      (feed logic 0 s.keys.logics[k]? (Keyed.valuesOf k (s.inbuf.getD e []))).2 := fun k => by
    rw [(run_itemStep_key h₁ k).2, feed_clock hclock now 0]
  have hawoken : ∀ k, k ∈ t₁.awokenKeysBuffer ↔
      k ∈ s.keys.awokenKeysBuffer ∨ Keyed.valuesOf k (s.inbuf.getD e []) ≠ [] := fun k => by
    rw [hwoken.awoken, Keyed.valuesOf_ne_nil, ← hkeys, List.mem_map]
  refine ⟨fun k => t₁.logics[k]?, fun k => k ∈ t₁.awokenKeysBuffer, ?_⟩
  rcases hcase with ⟨hc, rfl, rfl⟩ | ⟨hc, rfl, rfl⟩
  · have hsnaps : ∀ k, snapsOf e k (o₁ ++ (snapshots logic e t₁ ++
        (s.loadsInbuf.getD e []).map fun l => .load e l.1 l.2)) =
        if k ∈ t₁.awokenKeysBuffer then [changeOf logic t₁.logics[k]?] else [] := by
      intro k
      have hloads : snapsOf e k ((s.loadsInbuf.getD e []).map fun l =>
          (.load e l.1 l.2 : UnaryEvent K V W S)) = [] := by
        refine snapsOf_eq_nil_of_change fun x hx => ?_
        obtain ⟨l, -, rfl⟩ := List.mem_map.mp hx
        rfl
      rw [snapsOf_append, snapsOf_append, snapsOf_eq_nil_of_change hchange, snapsOf_snapshots,
        hloads, List.nil_append, List.append_nil]
    refine ⟨rfl, rfl, foldl_applyLoad_sched hnever _ (hempty hsched), hfed, hawoken,
      processEpoch_epoch hs, fun k => ?_, fun ho => absurd hc ho,
      fun _ => ⟨rfl, fun k => ?_, fun k => ?_, fun k hk => ?_, fun k hk => ?_⟩⟩
    · rw [itemsOf_append, hitems, itemsOf_eq_nil_of_emit emit_closed, List.append_nil]
    · rw [foldl_applyLoad_key, loadAll_clock hclock now 0]
    · simp [foldl_applyLoad_awoken]
    · rw [hsnaps, if_pos hk]
    · rw [hsnaps, if_neg hk]
  · exact ⟨rfl, rfl, hempty hsched, hfed, hawoken, processEpoch_epoch hs, hitems,
      fun _ => ⟨rfl, fun _ => rfl, fun _ => Iff.rfl, fun _ => snapsOf_eq_nil_of_change hchange⟩,
      fun hcl => absurd hcl hc⟩

/-! ### Positions -/

/-- The epochs before `E` are over, of epoch `E` the values `run` have been run, and everything else
that has been delivered is still buffered. -/
structure Position (logic : UnaryLogic V W S L) (items : Nat → K → List V)
    (loads : Nat → K → List (StateChange S)) (s : UnaryState K V S L)
    (events : List (UnaryEvent K V W S)) (E : Nat) (run : K → List V) : Prop where
  logics : ∀ k, s.keys.logics[k]? = (feed logic 0 (stateAt logic items loads E k) (run k)).1
  awoken : ∀ k, k ∈ s.keys.awokenKeysBuffer ↔ run k ≠ []
  sched : s.keys.schedCache.isEmpty = true
  itemsOver : ∀ e < E, ∀ k, itemsOf e k events = specItems logic items loads e k
  snapsOver : ∀ e < E, ∀ k, snapsOf e k events = specSnaps logic items loads e k
  itemsNow : ∀ k, itemsOf E k events = (feed logic 0 (stateAt logic items loads E k) (run k)).2
  snapsNow : ∀ k, snapsOf E k events = []
  epoch : ∀ x ∈ events, x.epoch ≤ E
  itemsAt : ∀ k, items E k = run k ++ Keyed.valuesOf k (s.inbuf.getD E [])
  itemsLater : ∀ e, E < e → ∀ k, items e k = Keyed.valuesOf k (s.inbuf.getD e [])
  loadsLater : ∀ e, E ≤ e → ∀ k, loads e k = Keyed.valuesOf k (s.loadsInbuf.getD e [])
  before : ∀ e < E, s.inbuf.getD e [] = [] ∧ s.loadsInbuf.getD e [] = []
  cap : ∀ c ∈ s.cap, c ≤ E ∧ (c < E → ∀ k, run k = [])

variable {items : Nat → K → List V} {loads : Nat → K → List (StateChange S)}
  {s s₁ : UnaryState K V S L} {E : Nat} {run : K → List V}

/-- An epoch in which nothing arrives is over without being gone through. -/
theorem Position.skip (h : Position logic items loads s events E run) (hrun : ∀ k, run k = [])
    (hi : s.inbuf.getD E [] = []) (hl : s.loadsInbuf.getD E [] = []) :
    Position logic items loads s events (E + 1) fun _ => [] := by
  have hitems : ∀ k, items E k = [] := fun k => by rw [h.itemsAt, hrun, hi]; rfl
  have hloads : ∀ k, loads E k = [] := fun k => by rw [h.loadsLater E le_rfl, hl]; rfl
  have hstate : ∀ k, stateAt logic items loads (E + 1) k = stateAt logic items loads E k := by
    intro k
    rw [stateAt, hitems, hloads]
    rfl
  have hepoch : ∀ x ∈ events, x.epoch ≠ E + 1 := fun x hx hxe => by
    have := h.epoch x hx
    omega
  have hover : ∀ e < E + 1, e < E ∨ e = E := fun e he => by omega
  refine ⟨fun k => ?_, fun k => ?_, h.sched, fun e he k => ?_, fun e he k => ?_, fun k => ?_,
    fun k => ?_, fun x hx => ?_, fun k => ?_, fun e he k => ?_, fun e he k => ?_, fun e he => ?_,
    fun c hc => ?_⟩
  · rw [hstate, h.logics, hrun]
  · rw [h.awoken, hrun]
  · rcases hover e he with he | rfl
    · exact h.itemsOver e he k
    · rw [h.itemsNow, hrun, specItems, hitems]
  · rcases hover e he with he | rfl
    · exact h.snapsOver e he k
    · rw [h.snapsNow, specSnaps, if_pos (hitems k)]
  · exact itemsOf_eq_nil hepoch
  · exact snapsOf_eq_nil hepoch
  · exact (h.epoch x hx).trans (Nat.le_succ E)
  · exact h.itemsLater (E + 1) (Nat.lt_succ_self E) k
  · exact h.itemsLater e (by omega) k
  · exact h.loadsLater e (by omega) k
  · rcases hover e he with he | rfl
    · exact h.before e he
    · exact ⟨hi, hl⟩
  · have := (h.cap c hc).1
    exact ⟨by omega, fun _ _ => rfl⟩

/-- The epochs up to the next one with something to do are over. -/
theorem Position.advance {E' : Nat} (h : Position logic items loads s events E run) (hE : E ≤ E')
    (hrun : E < E' → ∀ k, run k = [])
    (hbuf : ∀ e, E ≤ e → e < E' → s.inbuf.getD e [] = [] ∧ s.loadsInbuf.getD e [] = []) :
    ∃ run', Position logic items loads s events E' run' ∧ (E < E' → ∀ k, run' k = []) ∧
      (E = E' → run' = run) := by
  induction E', hE using Nat.le_induction with
  | base => exact ⟨run, h, fun hlt => absurd hlt (lt_irrefl E), fun _ => rfl⟩
  | succ E' hE ih =>
    obtain ⟨run', h', hnil, hsame⟩ := ih (fun hlt => hrun (hlt.trans (Nat.lt_succ_self E')))
      fun e hle hlt => hbuf e hle (hlt.trans (Nat.lt_succ_self E'))
    have hrun' : ∀ k, run' k = [] := by
      rcases Nat.eq_or_lt_of_le hE with rfl | hlt
      · rw [hsame rfl]
        exact hrun (Nat.lt_succ_self E)
      · exact hnil hlt
    obtain ⟨hi, hl⟩ := hbuf E' hE (Nat.lt_succ_self E')
    refine ⟨fun _ => [], h'.skip hrun' hi hl, fun _ _ => rfl, fun heq => ?_⟩
    omega

section Effect

variable {fed : K → Option L} {woken : K → Prop}

theorem getD_erase_of_ne {α : Type} {buf : TreeMap Nat (List α)} {e' : Nat} (hne : e ≠ e') :
    (buf.erase e).getD e' [] = buf.getD e' [] := by
  rw [TreeMap.getD_erase, if_neg fun hc => hne (Std.LawfulEqCmp.compare_eq_iff_eq.mp hc)]

/-- The epoch of the position, run as far as its items have arrived. -/
theorem Position.fed_eq (h : Position logic items loads s events E run)
    (he : EpochEffect logic f E s s₁ o fed woken) (k : K) :
    (fed k = (feed logic 0 (stateAt logic items loads E k) (items E k)).1 ∧
      itemsOf E k (events ++ o) = specItems logic items loads E k) ∧
      (woken k ↔ items E k ≠ []) := by
  rw [he.fed_eq, he.woken_iff, itemsOf_append, h.itemsNow, he.items, h.logics, h.awoken, specItems,
    h.itemsAt, feed_append]
  refine ⟨⟨rfl, rfl⟩, ?_⟩
  rw [Ne, Ne, Ne, List.append_eq_nil_iff, not_and_or]

/-- What the events of another epoch were, they are. -/
theorem EpochEffect.itemsOf_append (he : EpochEffect logic f e s s₁ o fed woken) {e' : Nat}
    (hne : e ≠ e') (k : K) : itemsOf e' k (events ++ o) = itemsOf e' k events ∧
      snapsOf e' k (events ++ o) = snapsOf e' k events := by
  have hepoch : ∀ x ∈ o, x.epoch ≠ e' := fun x hx hxe => hne ((he.epoch x hx).symm.trans hxe)
  rw [Unary.itemsOf_append, snapsOf_append, itemsOf_eq_nil hepoch, snapsOf_eq_nil hepoch,
    List.append_nil, List.append_nil]
  exact ⟨rfl, rfl⟩

/-- The epoch of the position is run while it is open. -/
theorem Position.runOpen (h : Position logic items loads s events E run)
    (he : EpochEffect logic f E s s₁ o fed woken) (ho : ¬ f.IsClosed E) :
    Position logic items loads s₁ (events ++ o) E (items E) := by
  obtain ⟨hloads, hlogics, hawoken, hsnaps⟩ := he.isOpen ho
  refine ⟨fun k => ?_, fun k => ?_, he.sched, fun e hlt k => ?_, fun e hlt k => ?_, fun k => ?_,
    fun k => ?_, fun x hx => ?_, fun k => ?_, fun e hlt k => ?_, fun e hle k => ?_, fun e hlt => ?_,
    fun c hc => ?_⟩
  · rw [hlogics, (h.fed_eq he k).1.1]
  · rw [hawoken, (h.fed_eq he k).2]
  · rw [(he.itemsOf_append hlt.ne' k).1, h.itemsOver e hlt]
  · rw [(he.itemsOf_append hlt.ne' k).2, h.snapsOver e hlt]
  · exact (h.fed_eq he k).1.2
  · rw [snapsOf_append, h.snapsNow, hsnaps, List.append_nil]
  · exact (List.mem_append.mp hx).elim (h.epoch x) fun hx => (he.epoch x hx).le
  · rw [he.inbuf, TreeMap.getD_erase_self, Keyed.valuesOf_nil, List.append_nil]
  · rw [he.inbuf, getD_erase_of_ne hlt.ne, h.itemsLater e hlt]
  · rw [hloads, h.loadsLater e hle]
  · rw [he.inbuf, hloads, getD_erase_of_ne hlt.ne']
    exact h.before e hlt
  · rw [he.cap] at hc
    obtain rfl : E = c := Option.some.inj hc
    exact ⟨le_rfl, fun hlt => absurd hlt (lt_irrefl E)⟩

/-- The epoch of the position is run and closed. -/
theorem Position.runClosed (h : Position logic items loads s events E run)
    (he : EpochEffect logic f E s s₁ o fed woken) (hc : f.IsClosed E) :
    Position logic items loads s₁ (events ++ o) (E + 1) fun _ => [] := by
  obtain ⟨hloads, hlogics, hawoken, hsnap, hnosnap⟩ := he.closed hc
  have hover : ∀ e < E + 1, e < E ∨ e = E := fun e he => by omega
  have hepoch : ∀ x ∈ events ++ o, x.epoch ≤ E := fun x hx =>
    (List.mem_append.mp hx).elim (h.epoch x) fun hx => (he.epoch x hx).le
  have hnext : ∀ x ∈ events ++ o, x.epoch ≠ E + 1 := fun x hx hxe => by
    have := hepoch x hx
    omega
  refine ⟨fun k => ?_, fun k => ?_, he.sched, fun e hlt k => ?_, fun e hlt k => ?_, fun k => ?_,
    fun k => ?_, fun x hx => ?_, fun k => ?_, fun e hlt k => ?_, fun e hle k => ?_, fun e hlt => ?_,
    fun c hc => ?_⟩
  · rw [hlogics, (h.fed_eq he k).1.1, feed_nil, stateAt, h.loadsLater E le_rfl]
  · exact iff_of_false (hawoken k) fun hne => hne rfl
  · rcases hover e hlt with hlt | rfl
    · rw [(he.itemsOf_append hlt.ne' k).1, h.itemsOver e hlt]
    · exact (h.fed_eq he k).1.2
  · rcases hover e hlt with hlt | rfl
    · rw [(he.itemsOf_append hlt.ne' k).2, h.snapsOver e hlt]
    · rw [snapsOf_append, h.snapsNow, List.nil_append, specSnaps]
      by_cases hk : items e k = []
      · rw [if_pos hk, hnosnap k fun hw => ((h.fed_eq he k).2.mp hw) hk]
      · rw [if_neg hk, hsnap k ((h.fed_eq he k).2.mpr hk), (h.fed_eq he k).1.1]
  · exact itemsOf_eq_nil hnext
  · exact snapsOf_eq_nil hnext
  · exact (hepoch x hx).trans (Nat.le_succ E)
  · rw [he.inbuf, getD_erase_of_ne (Nat.lt_succ_self E).ne, h.itemsLater _ (Nat.lt_succ_self E)]
    rfl
  · rw [he.inbuf, getD_erase_of_ne (by omega), h.itemsLater e (by omega)]
  · rw [hloads, getD_erase_of_ne (by omega), h.loadsLater e (by omega)]
  · rw [he.inbuf, hloads]
    rcases hover e hlt with hlt | rfl
    · rw [getD_erase_of_ne hlt.ne', getD_erase_of_ne hlt.ne']
      exact h.before e hlt
    · exact ⟨TreeMap.getD_erase_self, TreeMap.getD_erase_self⟩
  · rw [he.cap] at hc
    obtain rfl : E = c := Option.some.inj hc
    exact ⟨Nat.le_succ E, fun _ _ => rfl⟩

/-- An epoch that is over may be gone through once more, to no effect. -/
theorem Position.revisit (h : Position logic items loads s events E run)
    (he : EpochEffect logic f e s s₁ o fed woken) (hlt : e < E) (hrun : ∀ k, run k = []) :
    Position logic items loads s₁ (events ++ o) E run := by
  have hfed : ∀ k, fed k = s.keys.logics[k]? := fun k => by
    rw [he.fed_eq, (h.before e hlt).1]
    rfl
  have hwoken : ∀ k, ¬ woken k := fun k => by
    rw [he.woken_iff, h.awoken, hrun, (h.before e hlt).1]
    simp
  have hstate : (∀ k : K, s₁.keys.logics[k]? = s.keys.logics[k]?) ∧
      (∀ k, k ∉ s₁.keys.awokenKeysBuffer) ∧ (∀ k, snapsOf e k o = []) ∧
      ∀ e', s₁.loadsInbuf.getD e' [] = s.loadsInbuf.getD e' [] := by
    by_cases hc : f.IsClosed e
    · obtain ⟨hloads, hlogics, hawoken, -, hnosnap⟩ := he.closed hc
      refine ⟨fun k => ?_, hawoken, fun k => hnosnap k (hwoken k), fun e' => ?_⟩
      · rw [hlogics, hfed, (h.before e hlt).2]
        rfl
      · rw [hloads]
        by_cases hee : e = e'
        · rw [← hee, TreeMap.getD_erase_self, (h.before e hlt).2]
        · exact getD_erase_of_ne hee
    · obtain ⟨hloads, hlogics, hawoken, hsnaps⟩ := he.isOpen hc
      exact ⟨fun k => by rw [hlogics, hfed], fun k hk => hwoken k ((hawoken k).mp hk), hsnaps,
        fun e' => by rw [hloads]⟩
  obtain ⟨hlogics, hawoken, hsnaps, hloads⟩ := hstate
  have hinbuf : ∀ e', s₁.inbuf.getD e' [] = s.inbuf.getD e' [] := fun e' => by
    rw [he.inbuf]
    by_cases hee : e = e'
    · rw [← hee, TreeMap.getD_erase_self, (h.before e hlt).1]
    · exact getD_erase_of_ne hee
  have hitemsOf : ∀ e' k, itemsOf e' k (events ++ o) = itemsOf e' k events ∧
      snapsOf e' k (events ++ o) = snapsOf e' k events := by
    intro e' k
    by_cases hee : e = e'
    · subst hee
      rw [Unary.itemsOf_append, snapsOf_append, he.items, hsnaps, (h.before e hlt).1,
        Keyed.valuesOf_nil, feed_nil, List.append_nil, List.append_nil]
      exact ⟨rfl, rfl⟩
    · exact he.itemsOf_append hee k
  refine ⟨fun k => ?_, fun k => ?_, he.sched, fun e' hlt' k => ?_, fun e' hlt' k => ?_, fun k => ?_,
    fun k => ?_, fun x hx => ?_, fun k => ?_, fun e' hlt' k => ?_, fun e' hle' k => ?_,
    fun e' hlt' => ?_, fun c hc => ?_⟩
  · rw [hlogics, h.logics]
  · exact iff_of_false (hawoken k) fun hne => hne (hrun k)
  · rw [(hitemsOf e' k).1, h.itemsOver e' hlt']
  · rw [(hitemsOf e' k).2, h.snapsOver e' hlt']
  · rw [(hitemsOf E k).1, h.itemsNow]
  · rw [(hitemsOf E k).2, h.snapsNow]
  · rcases List.mem_append.mp hx with hx | hx
    · exact h.epoch x hx
    · rw [he.epoch x hx]
      exact hlt.le
  · rw [hinbuf, h.itemsAt]
  · rw [hinbuf, h.itemsLater e' hlt']
  · rw [hloads, h.loadsLater e' hle']
  · rw [hinbuf, hloads]
    exact h.before e' hlt'
  · rw [he.cap] at hc
    obtain rfl : e = c := Option.some.inj hc
    exact ⟨hlt.le, fun _ => hrun⟩

end Effect

/-! ### One activation -/

section Activation

variable (hclock : logic.ReadsNoClock) (hnever : logic.NeverNotifies)

include hclock hnever

variable (now) in
/-- Going through the epochs of an activation takes the position to the frontier. -/
theorem run_processEpoch_position {t : Nat} {es : List Nat} (hl : Looping (some t) s es)
    (h : Position logic items loads s events E run) (hE : E ≤ t)
    (hrun : (∃ k, run k ≠ []) → E ∈ es ∨ E = t) :
    ∃ s₁ o, Runs.run (processEpoch logic now (some t)) s es = some (s₁, o) ∧
      Looping (some t) s₁ [] ∧ (∃ run', Position logic items loads s₁ (events ++ o) t run') ∧
      (t ∈ es → s₁.inbuf.getD t [] = []) := by
  induction es generalizing s events E run with
  | nil =>
    have hbuf : ∀ e, E ≤ e → e < t → s.inbuf.getD e [] = [] ∧ s.loadsInbuf.getD e [] = [] := by
      intro e _ hlt
      have hno : ¬ (Frontier.Admits (some t) e ∨ e ∈ ([] : List Nat)) := by
        rintro (⟨u, hu, hle⟩ | hmem)
        · obtain rfl : t = u := Option.some.inj hu
          omega
        · exact absurd hmem (by simp)
      exact ⟨TreeMap.getD_eq_fallback fun hm => hno (hl.inbuf e hm),
        TreeMap.getD_eq_fallback fun hm => hno (hl.loadsInbuf e hm)⟩
    have hnil : E < t → ∀ k, run k = [] := by
      intro hlt k
      by_contra hk
      rcases hrun ⟨k, hk⟩ with hmem | heq
      · exact absurd hmem (by simp)
      · omega
    obtain ⟨run', h', -⟩ := h.advance hE hnil hbuf
    exact ⟨s, [], rfl, hl, ⟨run', by rwa [List.append_nil]⟩, by simp⟩
  | cons e es ih =>
    obtain ⟨s₁, o₁, hs, hl₁⟩ := processEpoch_looping logic now hl
    obtain ⟨fed, woken, heff⟩ := processEpoch_effect hclock hnever rfl h.sched hs
    have hsorted := List.pairwise_cons.mp hl.sorted
    have het : e ≤ t := hl.rest_le e (by simp) t rfl
    have hmin : ∀ x ∈ e :: es, e ≤ x := by
      intro x hx
      rcases List.mem_cons.mp hx with rfl | hx
      · exact le_rfl
      · exact (hsorted.1 x hx).le
    have hdone : ∀ {s₂ : UnaryState K V S L} {o₂ : List (UnaryEvent K V W S)},
        Runs.run (processEpoch logic now (some t)) s₁ es = some (s₂, o₂) →
        (t ∈ es → s₂.inbuf.getD t [] = []) → t ∈ e :: es → s₂.inbuf.getD t [] = [] := by
      intro s₂ o₂ hr hd ht
      rcases List.mem_cons.mp ht with rfl | ht
      · have hes : es = [] := by
          refine List.eq_nil_iff_forall_not_mem.mpr fun x hx => ?_
          have := hl.rest_le x (List.mem_cons_of_mem _ hx) t rfl
          have := hsorted.1 x hx
          omega
        rw [hes] at hr
        simp only [Runs.run_nil, Option.some.injEq, Prod.mk.injEq] at hr
        rw [← hr.1, heff.inbuf, TreeMap.getD_erase_self]
      · exact hd ht
    have hnext : ∀ {E' : Nat} {run' : K → List V},
        Position logic items loads s₁ (events ++ o₁) E' run' → E' ≤ t →
        ((∃ k, run' k ≠ []) → E' ∈ es ∨ E' = t) →
        ∃ s₂ o, Runs.run (processEpoch logic now (some t)) s (e :: es) = some (s₂, o) ∧
          Looping (some t) s₂ [] ∧
          (∃ run', Position logic items loads s₂ (events ++ o) t run') ∧
          (t ∈ e :: es → s₂.inbuf.getD t [] = []) := by
      intro E' run' h' hE' hrun'
      obtain ⟨s₂, o₂, hr, hl₂, ⟨run₂, h₂⟩, hd⟩ := ih hl₁ h' hE' hrun'
      refine ⟨s₂, o₁ ++ o₂, Runs.run_cons hs hr, hl₂,
        ⟨run₂, ?_⟩, hdone hr hd⟩
      rwa [← List.append_assoc]
    by_cases hlt : e < E
    · -- an epoch that is over already: the last output epoch
      obtain ⟨c, hcap, hce, -⟩ := hl.cap
      have hnil : ∀ k, run k = [] :=
        (h.cap c (by simp [hcap])).2 (lt_of_le_of_lt (hce e (by simp)) hlt)
      exact hnext (h.revisit heff hlt hnil) hE fun ⟨k, hk⟩ => absurd (hnil k) hk
    · have hEe : E ≤ e := Nat.not_lt.mp hlt
      have hbuf : ∀ x, E ≤ x → x < e → s.inbuf.getD x [] = [] ∧ s.loadsInbuf.getD x [] = [] := by
        intro x _ hxe
        have hno : ¬ (Frontier.Admits (some t) x ∨ x ∈ e :: es) := by
          rintro (⟨u, hu, hle⟩ | hmem)
          · obtain rfl : t = u := Option.some.inj hu
            omega
          · have := hmin x hmem
            omega
        exact ⟨TreeMap.getD_eq_fallback fun hm => hno (hl.inbuf x hm),
          TreeMap.getD_eq_fallback fun hm => hno (hl.loadsInbuf x hm)⟩
      have hnil : E < e → ∀ k, run k = [] := by
        intro hlt' k
        by_contra hk
        rcases hrun ⟨k, hk⟩ with hmem | heq
        · have := hmin E hmem
          omega
        · omega
      obtain ⟨run', h', -⟩ := h.advance hEe hnil hbuf
      by_cases hc : Frontier.IsClosed (some t) e
      · have := Frontier.isClosed_some.mp hc
        exact hnext (h'.runClosed heff hc) (by omega) fun ⟨k, hk⟩ => absurd rfl hk
      · have : ¬ e < t := fun hc' => hc (Frontier.isClosed_some.mpr hc')
        exact hnext (h'.runOpen heff hc) het fun _ => .inr (by omega)

end Activation

/-! ### Schedules -/

/-- The items that a schedule delivers for an epoch. -/
def delivered (as : List (Activation K V S)) (e : Nat) : List (K × V) :=
  (Keyed.valuesOf e (as.flatMap fun a => a.items)).flatten

/-- The loads that a schedule delivers for an epoch. -/
def deliveredLoads (as : List (Activation K V S)) (e : Nat) : List (K × StateChange S) :=
  (Keyed.valuesOf e (as.flatMap fun a => a.loads)).flatten

/-- The frontier of all inputs after a schedule. -/
def frontierAfter (as : List (Activation K V S)) : Frontier :=
  (as.getLast?.map fun a => a.frontier).getD (some 0)

/-- The delivered values of a key. -/
def itemsFor (as : List (Activation K V S)) (e : Nat) (k : K) : List V :=
  Keyed.valuesOf k (delivered as e)

/-- The delivered loads of a key. -/
def loadsFor (as : List (Activation K V S)) (e : Nat) (k : K) : List (StateChange S) :=
  Keyed.valuesOf k (deliveredLoads as e)

omit [LinearOrder K] in
theorem delivered_append_singleton (as : List (Activation K V S)) (a : Activation K V S) (e : Nat) :
    delivered (as ++ [a]) e = delivered as e ++ (Keyed.valuesOf e a.items).flatten := by
  simp [delivered]

omit [LinearOrder K] in
theorem deliveredLoads_append_singleton (as : List (Activation K V S)) (a : Activation K V S)
    (e : Nat) :
    deliveredLoads (as ++ [a]) e = deliveredLoads as e ++ (Keyed.valuesOf e a.loads).flatten := by
  simp [deliveredLoads]

omit [LinearOrder K] in
theorem frontierAfter_append_singleton (as : List (Activation K V S)) (a : Activation K V S) :
    frontierAfter (as ++ [a]) = a.frontier := by
  simp [frontierAfter]

/-- New messages are not behind the frontier, so they change nothing of what is over. -/
theorem Position.deliver {as : List (Activation K V S)} {a : Activation K V S} {t : Nat}
    (h : Position logic (itemsFor as) (loadsFor as) s events t run)
    (hi : ∀ b ∈ a.items, t ≤ b.1) (hl : ∀ b ∈ a.loads, t ≤ b.1) :
    Position logic (itemsFor (as ++ [a])) (loadsFor (as ++ [a])) (buffered s a) events t run := by
  have hitems : ∀ e k, itemsFor (as ++ [a]) e k =
      itemsFor as e k ++ Keyed.valuesOf k (Keyed.valuesOf e a.items).flatten := fun e k => by
    rw [itemsFor, delivered_append_singleton, Keyed.valuesOf_append]
    rfl
  have hloads : ∀ e k, loadsFor (as ++ [a]) e k =
      loadsFor as e k ++ Keyed.valuesOf k (Keyed.valuesOf e a.loads).flatten := fun e k => by
    rw [loadsFor, deliveredLoads_append_singleton, Keyed.valuesOf_append]
    rfl
  have hnone : ∀ e < t, Keyed.valuesOf e a.items = [] ∧ Keyed.valuesOf e a.loads = [] := by
    intro e hlt
    constructor
    · refine Keyed.valuesOf_eq_nil fun hm => ?_
      obtain ⟨b, hb, rfl⟩ := List.mem_map.mp hm
      exact absurd (hi b hb) (Nat.not_le.mpr hlt)
    · refine Keyed.valuesOf_eq_nil fun hm => ?_
      obtain ⟨b, hb, rfl⟩ := List.mem_map.mp hm
      exact absurd (hl b hb) (Nat.not_le.mpr hlt)
  have hitems' : ∀ e < t, ∀ k, itemsFor (as ++ [a]) e k = itemsFor as e k := fun e hlt k => by
    rw [hitems, (hnone e hlt).1]
    simp
  have hloads' : ∀ e < t, ∀ k, loadsFor (as ++ [a]) e k = loadsFor as e k := fun e hlt k => by
    rw [hloads, (hnone e hlt).2]
    simp
  have hstate : ∀ e ≤ t, ∀ k, stateAt logic (itemsFor (as ++ [a])) (loadsFor (as ++ [a])) e k =
      stateAt logic (itemsFor as) (loadsFor as) e k := fun e hle k =>
    stateAt_congr (fun x hx => hitems' x (by omega) k) fun x hx => hloads' x (by omega) k
  refine ⟨fun k => ?_, h.awoken, h.sched, fun e hlt k => ?_, fun e hlt k => ?_, fun k => ?_,
    h.snapsNow, h.epoch, fun k => ?_, fun e hlt k => ?_, fun e hle k => ?_, fun e hlt => ?_, h.cap⟩
  · rw [hstate t le_rfl]
    exact h.logics k
  · rw [h.itemsOver e hlt, specItems, specItems, hstate e hlt.le, hitems' e hlt]
  · rw [h.snapsOver e hlt, specSnaps, specSnaps, hstate e hlt.le, hitems' e hlt]
  · rw [h.itemsNow, hstate t le_rfl]
  · rw [hitems, h.itemsAt]
    simp [buffered, getD_extend]
  · rw [hitems, h.itemsLater e hlt]
    simp [buffered, getD_extend]
  · rw [hloads, h.loadsLater e hle]
    simp [buffered, getD_extend]
  · simp only [buffered, getD_extend, hnone e hlt]
    simpa using h.before e hlt

theorem Position.init {run : K → List V} (hrun : ∀ k, run k = []) :
    Position logic (itemsFor ([] : List (Activation K V S)))
      (loadsFor ([] : List (Activation K V S))) Unary.init [] 0 run := by
  have hitems : ∀ e k, itemsFor ([] : List (Activation K V S)) e k = [] := fun e k => rfl
  have hloads : ∀ e k, loadsFor ([] : List (Activation K V S)) e k = [] := fun e k => rfl
  refine ⟨fun k => ?_, fun k => ?_, ?_, by simp, by simp, fun k => ?_, fun k => rfl, by simp,
    fun k => ?_, fun e _ k => ?_, fun e _ k => ?_, by simp, fun c hc => ?_⟩
  · rw [hrun]
    simp [Unary.init, stateAt]
  · rw [hrun]
    simp [Unary.init]
  · simp [Unary.init]
  · rw [hrun]
    rfl
  · rw [hrun, hitems]
    simp [Unary.init]
  · rw [hitems]
    simp [Unary.init]
  · rw [hloads]
    simp [Unary.init]
  · obtain rfl : 0 = c := Option.some.inj hc
    exact ⟨le_rfl, fun hlt => absurd hlt (lt_irrefl 0)⟩

section Schedules

variable (hclock : logic.ReadsNoClock) (hnever : logic.NeverNotifies)

include hclock hnever

variable {resumeEpoch : Nat}

variable (resumeEpoch) in
/-- An activation takes the position from one frontier to the next. -/
theorem activate_position {as : List (Activation K V S)} {a : Activation K V S} {fi fl : Frontier}
    {t t' : Nat} (hpos : Position logic (itemsFor as) (loadsFor as) s events t run)
    (hready : Ready (fi.both fl) s) (ha : Follows fi fl a) (hft : fi.both fl = some t)
    (hft' : a.frontier = some t') :
    ∃ s₁ o run', activate logic resumeEpoch s a = some (s₁, o) ∧
      Position logic (itemsFor (as ++ [a])) (loadsFor (as ++ [a])) s₁ (events ++ o) t' run' ∧
      (resumeEpoch ≤ t' → s₁.inbuf.getD t' [] = []) := by
  obtain ⟨c, hcap⟩ : ∃ c, s.cap = some c := by
    refine Option.ne_none_iff_exists'.mp fun hc => ?_
    rw [hready.cap_eq_none, hft] at hc
    exact absurd hc (by simp)
  have hle : t ≤ t' := by
    obtain ⟨u, hu, hut⟩ := Frontier.both_mono ha.itemsFrontier_le ha.loadsFrontier_le t' hft'
    rw [hft] at hu
    obtain rfl : t = u := Option.some.inj hu
    exact hut
  have hadmit : ∀ {e}, (fi.both fl).Admits e → t ≤ e := by
    rintro e ⟨u, hu, hue⟩
    rw [hft] at hu
    obtain rfl : t = u := Option.some.inj hu
    exact hue
  have hpos' := hpos.deliver
    (fun b hb => hadmit ((ha.items b hb).mono (Frontier.both_le_left fi fl)))
    (fun b hb => hadmit ((ha.loads b hb).mono (Frontier.both_le_right fi fl)))
  have hl := looping_buffered resumeEpoch hready ha hcap
  rw [hft'] at hl
  have hrun : (∃ k, run k ≠ []) → t ∈ epochsOf resumeEpoch c s a ∨ t = t' := by
    rintro ⟨k, hk⟩
    rcases Nat.eq_or_lt_of_le hle with heq | hlt
    · exact .inr heq
    · -- the epoch was run while it was open, so it is the last output epoch
      obtain ⟨hct, hnil⟩ := hpos.cap c (by simp [hcap])
      have hc : t = c := by
        by_contra hne
        exact hk (hnil (by omega) k)
      refine .inl (mem_processEpochs.mpr (.inl ⟨.inl hc, ?_⟩))
      rw [hft']
      exact Frontier.isClosed_some.mpr hlt
  obtain ⟨s₁, o, hr, hl₁, ⟨run', h'⟩, hbuf⟩ :=
    run_processEpoch_position a.now hclock hnever hl hpos' hle hrun
  have hcap₁ : (finished resumeEpoch a s₁).cap = s₁.cap := by
    simp [finished, hft', Frontier.isEof]
  refine ⟨finished resumeEpoch a s₁, o, run', ?_, ?_, fun hres => hbuf ?_⟩
  · rw [activate_some hcap, hft', hr]
    rfl
  · exact ⟨h'.logics, h'.awoken, h'.sched, h'.itemsOver, h'.snapsOver, h'.itemsNow, h'.snapsNow,
      h'.epoch, h'.itemsAt, h'.itemsLater, h'.loadsLater, h'.before, hcap₁ ▸ h'.cap⟩
  · refine mem_processEpochs.mpr (.inr ?_)
    rw [hft']
    exact ⟨hres, rfl⟩

variable (resumeEpoch) in
/-- **A run stands at its frontier**: the epochs before it are over, and from the resume epoch on
what has arrived of it has been run. -/
theorem run_position {as : List (Activation K V S)} (has : Schedule (some 0) (some 0) as)
    (hopen : ∀ a ∈ as, a.frontier ≠ none) :
    ∃ s events t run, Runs.run (activate logic resumeEpoch) Unary.init as = some (s, events) ∧
      frontierAfter as = some t ∧
      Position logic (itemsFor as) (loadsFor as) s events t run ∧
      (resumeEpoch ≤ t → ∀ k, run k = itemsFor as t k) := by
  obtain ⟨s, events, hr, pre, hpre, ⟨t, run, hft, hpos, hbuf⟩, -⟩ := Runs.run_total_from
    (activate logic resumeEpoch) (Q := fun _ _ => True)
    (P := fun events s rest => ∃ pre, as = pre ++ rest ∧ (∃ t run, frontierAfter pre = some t ∧
      Position logic (itemsFor pre) (loadsFor pre) s events t run ∧
      (resumeEpoch ≤ t → s.inbuf.getD t [] = [])) ∧
      ∃ fi fl, fi.both fl = frontierAfter pre ∧ Ready (fi.both fl) s ∧ Schedule fi fl rest)
    (fun events s a rest ⟨pre, hpre, ⟨t, run, hft, hpos, hbuf⟩, fi, fl, hfs, hready, ha, hrest⟩
        _ => by
      have hmem : a ∈ as := by simp [hpre]
      obtain ⟨t', hft'⟩ := Option.ne_none_iff_exists'.mp (hopen a hmem)
      obtain ⟨s₁, o₁, run', hact, hpos', hbuf'⟩ := activate_position hclock hnever resumeEpoch
        hpos hready ha (hfs.trans hft) hft'
      obtain ⟨s₂, o₂, hact₂, hready₂⟩ := activate_ready logic resumeEpoch hready ha
      rw [hact] at hact₂
      simp only [Option.some.injEq, Prod.mk.injEq] at hact₂
      refine ⟨s₁, o₁, hact, pre ++ [a], by simp [hpre],
        ⟨t', run', by rw [frontierAfter_append_singleton, hft'], hpos', hbuf'⟩,
        a.itemsFrontier, a.loadsFrontier, (frontierAfter_append_singleton pre a).symm, ?_, hrest⟩
      rw [hact₂.1]
      exact hready₂)
    ⟨[], rfl, ⟨0, fun _ => [], rfl, Position.init fun _ => rfl, fun _ => by simp [Unary.init]⟩,
      some 0, some 0, rfl, ready_init, has⟩ (Runs.along_true _ _)
  rw [List.append_nil] at hpre
  subst hpre
  refine ⟨s, events, t, run, hr, hft, hpos, fun hle k => ?_⟩
  rw [hpos.itemsAt, hbuf hle, Keyed.valuesOf_nil, List.append_nil]

end Schedules

end Unary
end Bytewax
