import Bytewax.Operators.UnaryEvents

/-!
# Bytewax.Operators.UnaryNotify — the times that logics want to be notified at

A logic is asked for its next time after it has been called, and when it has been loaded; the answer
is kept in the schedule cache.  The cache takes over a time that is answered, and the entry of a
logic that is discarded is removed; but an answer of `None` does not remove the time that was
answered before.  As long as no answer takes back a time that has neither fired nor been dropped with
its logic (`NoneTakenBack`), the cache is what the logics answered last.
-/

namespace Bytewax

open Std (TreeMap TreeSet)

namespace Unary

variable {K V W S L : Type} [LinearOrder K]

section

variable (logic : UnaryLogic V W S L) (now : Int)

/-! ### The answers of the logics -/

/-- What bears on the next time of a key: its logic is asked and answers, it is notified, or it is
discarded. -/
inductive SchedEvent (K : Type)
  | answered (key : K) (answer : Option Int)
  | notified (key : K)
  | dropped (key : K)
  deriving DecidableEq, Repr

/-- What a call has to do with it. -/
def schedEvent : UnaryEvent K V W S → Option (SchedEvent K)
  | .onItem _ key _ _ .discard | .onEof _ key _ .discard => some (.dropped key)
  | .onNotify _ key _ _ _ => some (.notified key)
  | _ => none

/-- The answers of the awoken logics. -/
def answers (s : UnaryKeys K L) : List (SchedEvent K) :=
  s.awokenKeysBuffer.toList.filterMap fun key =>
    s.logics[key]?.map fun l => .answered key (logic.notifyAt l)

/-- The answer of a loaded logic. -/
def loadAnswer (load : K × StateChange S) : SchedEvent K :=
  match load.2 with
  | .upsert state => .answered load.1 (logic.notifyAt (logic.builder now (some state)))
  | .discard => .dropped load.1

/-- The calls of an epoch, then the answers, then those of the loads. -/
def epochHistory (f : Frontier) (s : UnaryState K V S L) (e : Nat) : List (SchedEvent K) :=
  match callPhases logic now f.isEof e (s.inbuf.getD e []) s.keys with
  | none => []
  | some (keys, called) => called.filterMap schedEvent ++ (answers logic keys ++
      if f.IsClosed e then (s.loadsInbuf.getD e []).map (loadAnswer logic now) else [])

/-- The epochs of an activation. -/
def activationHistory (resumeEpoch : Nat) (s : UnaryState K V S L) (a : Activation K V S) :
    List (SchedEvent K) :=
  match s.cap with
  | none => []
  | some c => Runs.observe (processEpoch logic a.now a.frontier)
      (epochHistory logic a.now a.frontier) (buffered s a) (epochsOf resumeEpoch c s a)

/-- All that logics answer in a run. -/
def history (resumeEpoch : Nat) (as : List (Activation K V S)) : List (SchedEvent K) :=
  Runs.observe (activate logic resumeEpoch) (activationHistory logic resumeEpoch) init as

/-- A time has been answered for a key, and it has neither fired nor been dropped since. -/
def Stands (k : K) (sched : Int) (h : List (SchedEvent K)) : Prop :=
  ∃ pre mid, h = pre ++ .answered k (some sched) :: mid ∧ .notified k ∉ mid ∧ .dropped k ∉ mid

/-- No logic answers `None` while a time that was answered for its key stands. -/
def NoneTakenBack (h : List (SchedEvent K)) : Prop :=
  ∀ k pre post, h = pre ++ .answered k none :: post → ∀ sched, ¬ Stands k sched pre

/-! ### The property -/

/-- The cache holds the last answer of each logic, and nothing else. -/
def Current (s : UnaryKeys K L) : Prop :=
  ∀ k : K, s.schedCache[k]? = s.logics[k]?.bind logic.notifyAt

/-- In an epoch, a logic is only notified of the time that it answered last. -/
def NotifiesLatest (f : Frontier) (s : UnaryState K V S L) (e : Nat) : Prop :=
  Current logic s.keys ∧ ∀ s₁ o, processEpoch logic now f s e = some (s₁, o) →
    ∀ k sched emit isComplete, .onNotify e k sched emit isComplete ∈ o →
      s.keys.logics[k]?.bind logic.notifyAt = some sched

/-- A condition on the epochs of an activation. -/
def InEpochs (resumeEpoch : Nat) (Q : Int → Frontier → UnaryState K V S L → Nat → Prop)
    (s : UnaryState K V S L) (a : Activation K V S) : Prop :=
  ∀ c, s.cap = some c → Runs.Along (processEpoch logic a.now a.frontier) (Q a.now a.frontier)
    (buffered s a) (epochsOf resumeEpoch c s a)

end

variable {logic : UnaryLogic V W S L} {now : Int} {e : Nat} {s s₁ s₂ : UnaryKeys K L}
  {o : List (UnaryEvent K V W S)}

/-! ### The time that stands -/

/-- The next time of a key after an event. -/
def SchedEvent.next (k : K) (sched : Option Int) : SchedEvent K → Option Int
  | .answered _ none => sched
  | .answered key (some t) => if key = k then some t else sched
  | .notified key | .dropped key => if key = k then none else sched

/-- The last time that was answered for a key, if it has neither fired nor been dropped. -/
def standing (k : K) (h : List (SchedEvent K)) : Option Int := h.foldl (SchedEvent.next k) none

theorem SchedEvent.next_answered_ne {k key : K} (hk : key ≠ k) (answer : Option Int)
    (sched : Option Int) : (SchedEvent.answered key answer).next k sched = sched := by
  cases answer with
  | none => rfl
  | some t => exact if_neg hk

theorem foldl_next_eq {k : K} {sched : Option Int} {xs : List (SchedEvent K)}
    (h : ∀ x ∈ xs, SchedEvent.next k sched x = sched) :
    xs.foldl (SchedEvent.next k) sched = sched := by
  induction xs with
  | nil => rfl
  | cons x xs ih =>
    rw [List.foldl_cons, h x List.mem_cons_self]
    exact ih fun y hy => h y (List.mem_cons_of_mem x hy)

theorem standing_append (k : K) (h h' : List (SchedEvent K)) :
    standing k (h ++ h') = h'.foldl (SchedEvent.next k) (standing k h) :=
  List.foldl_append

omit [LinearOrder K] in
/-- A time that stands still stands after an event that does not end it. -/
theorem Stands.concat {k : K} {sched : Int} {h : List (SchedEvent K)} (hs : Stands k sched h)
    {x : SchedEvent K} (hn : x ≠ .notified k) (hd : x ≠ .dropped k) : Stands k sched (h ++ [x]) := by
  obtain ⟨pre, mid, rfl, hmn, hmd⟩ := hs
  refine ⟨pre, mid ++ [x], by rw [List.append_assoc, List.cons_append], ?_, ?_⟩
  · exact List.not_mem_append hmn (mt List.mem_singleton.mp hn.symm)
  · exact List.not_mem_append hmd (mt List.mem_singleton.mp hd.symm)

theorem stands_of_standing {k : K} {h : List (SchedEvent K)} {sched : Int}
    (hs : standing k h = some sched) : Stands k sched h := by
  induction h using List.reverseRecOn with
  | nil => cases hs
  | append_singleton h x ih =>
    rw [standing_append] at hs
    cases x with
    | answered key answer =>
      cases answer with
      | none => exact (ih hs).concat (by rintro ⟨⟩) (by rintro ⟨⟩)
      | some t =>
        by_cases hk : key = k
        · subst hk
          obtain rfl : t = sched := by simpa [SchedEvent.next] using hs
          exact ⟨h, [], rfl, List.not_mem_nil, List.not_mem_nil⟩
        · exact (ih (by simpa [SchedEvent.next, hk] using hs)).concat (by rintro ⟨⟩) (by rintro ⟨⟩)
    | notified key =>
      by_cases hk : key = k
      · simp [SchedEvent.next, hk] at hs
      · exact (ih (by simpa [SchedEvent.next, hk] using hs)).concat (by simpa using hk) (by rintro ⟨⟩)
    | dropped key =>
      by_cases hk : key = k
      · simp [SchedEvent.next, hk] at hs
      · exact (ih (by simpa [SchedEvent.next, hk] using hs)).concat (by rintro ⟨⟩) (by simpa using hk)

omit [LinearOrder K] in
theorem NoneTakenBack.of_append (h h' : List (SchedEvent K)) (hn : NoneTakenBack (h ++ h')) :
    NoneTakenBack h := by
  rintro k pre post rfl
  exact hn k pre (post ++ h') (by simp)

/-- No time stands when a logic answers `None`. -/
theorem NoneTakenBack.standing_eq {k : K} {h h' : List (SchedEvent K)}
    (hn : NoneTakenBack (h ++ .answered k none :: h')) : standing k h = none := by
  rw [Option.eq_none_iff_forall_ne_some]
  exact fun sched hs => hn k h h' rfl sched (stands_of_standing hs)

/-- The cache holds the times that stand. -/
def Noted (h : List (SchedEvent K)) (s : UnaryKeys K L) : Prop :=
  ∀ k : K, s.schedCache[k]? = standing k h

/-! ### What the calls do to the cache -/

/-- Nothing happened to the keys that still sleep. -/
def Sleeps (s s₁ : UnaryKeys K L) : Prop :=
  ∀ k, k ∉ s₁.awokenKeysBuffer → k ∉ s.awokenKeysBuffer ∧
    s₁.logics[k]? = s.logics[k]? ∧ s₁.schedCache[k]? = s.schedCache[k]?

theorem Sleeps.refl (s : UnaryKeys K L) : Sleeps s s := fun _ hk => ⟨hk, rfl, rfl⟩

theorem Sleeps.trans (h : Sleeps s s₁) (h' : Sleeps s₁ s₂) : Sleeps s s₂ := by
  intro k hk
  obtain ⟨hk₁, hl₁, hc₁⟩ := h' k hk
  obtain ⟨hk₀, hl₀, hc₀⟩ := h k hk₁
  exact ⟨hk₀, hl₁.trans hl₀, hc₁.trans hc₀⟩

/-- A step that wakes one key and leaves the others as they are. -/
theorem Sleeps.of_insert {k₀ : K} (ha : s₁.awokenKeysBuffer = s.awokenKeysBuffer.insert k₀)
    (hl : ∀ k, k ≠ k₀ → s₁.logics[k]? = s.logics[k]?)
    (hc : ∀ k, k ≠ k₀ → s₁.schedCache[k]? = s.schedCache[k]?) : Sleeps s s₁ := by
  intro k hk
  rw [ha, TreeSet.mem_insert, Std.LawfulEqCmp.compare_eq_iff_eq, not_or] at hk
  have hne : k ≠ k₀ := fun he => hk.1 he.symm
  exact ⟨hk.2, hl k hne, hc k hne⟩

theorem sleeps_run {ι : Type} {is : List ι}
    {step : UnaryKeys K L → ι → Option (UnaryKeys K L × List (UnaryEvent K V W S))}
    (hstep : ∀ s i s₁ o₁, step s i = some (s₁, o₁) → Sleeps s s₁)
    (hr : Runs.run step s is = some (s₁, o)) : Sleeps s s₁ :=
  Runs.run_induct (P := Sleeps s) (Q := fun _ _ => True)
    (fun _ _ _ _ h _ hs => h.trans (hstep _ _ _ _ hs)) (.refl s) (Runs.along_true _ _) hr

theorem itemStep_sleeps {item : K × V} (h : itemStep logic now e s item = some (s₁, o)) :
    Sleeps s s₁ := by
  rcases hl : logic.onItem (s.logics.getD item.1 (logic.builder now none)) now item.2 with
    ⟨l, emit, isComplete⟩
  rw [itemStep, hl] at h
  simp only [Option.some.injEq, Prod.mk.injEq] at h
  obtain ⟨rfl, rfl⟩ := h
  cases isComplete with
  | discard =>
    refine .of_insert rfl (fun k hk => ?_) (fun k hk => ?_)
    · simp [TreeMap.getElem?_erase, hk.symm]
    · simp [TreeMap.getElem?_erase, hk.symm]
  | retain =>
    refine .of_insert rfl (fun k hk => ?_) (fun _ _ => rfl)
    simp [TreeMap.getElem?_insert, hk.symm]

/-- Items only take times out of the cache. -/
theorem itemStep_sched {item : K × V} (h : itemStep logic now e s item = some (s₁, o)) {k : K}
    {sched : Int} (hk : s₁.schedCache[k]? = some sched) : s.schedCache[k]? = some sched := by
  rcases hl : logic.onItem (s.logics.getD item.1 (logic.builder now none)) now item.2 with
    ⟨l, emit, isComplete⟩
  rw [itemStep, hl] at h
  simp only [Option.some.injEq, Prod.mk.injEq] at h
  obtain ⟨rfl, rfl⟩ := h
  cases isComplete with
  | discard =>
    simp only [TreeMap.getElem?_erase] at hk
    split at hk
    · cases hk
    · exact hk
  | retain => exact hk

theorem notifyStep_sleeps {entry : K × Int} (h : notifyStep logic e s entry = some (s₁, o)) :
    Sleeps s s₁ := by
  obtain ⟨l, -, h⟩ := Option.bind_eq_some_iff.mp h
  rcases hl : logic.onNotify l entry.2 with ⟨l', emit, isComplete⟩
  rw [hl] at h
  simp only [pure, Option.some.injEq, Prod.mk.injEq] at h
  obtain ⟨rfl, rfl⟩ := h
  cases isComplete with
  | discard =>
    refine .of_insert rfl (fun k hk => ?_) (fun k hk => ?_)
    · simp [TreeMap.getElem?_erase, hk.symm]
    · simp [TreeMap.getElem?_erase, hk.symm]
  | retain =>
    refine .of_insert rfl (fun k hk => ?_) (fun k hk => ?_)
    · simp [TreeMap.getElem?_insert, hk.symm]
    · simp [TreeMap.getElem?_erase, hk.symm]

theorem eofStep_sleeps {entry : K × L} (h : eofStep logic e s entry = some (s₁, o)) :
    Sleeps s s₁ := by
  rcases hl : logic.onEof entry.2 with ⟨l, emit, isComplete⟩
  rw [eofStep, hl] at h
  simp only [Option.some.injEq, Prod.mk.injEq] at h
  obtain ⟨rfl, rfl⟩ := h
  refine .of_insert rfl (fun k hk => ?_) (fun _ _ => rfl)
  simp [TreeMap.getElem?_insert, hk.symm]

theorem removeKeys_of_not_mem (keys : List K) {k : K} (hk : k ∉ keys) :
    (removeKeys s keys).logics[k]? = s.logics[k]? ∧
      (removeKeys s keys).schedCache[k]? = s.schedCache[k]? := by
  induction keys generalizing s with
  | nil => exact ⟨rfl, rfl⟩
  | cons k₀ keys ih =>
    rw [List.mem_cons, not_or] at hk
    obtain ⟨hl, hc⟩ := ih (s := { s with
      logics := s.logics.erase k₀, schedCache := s.schedCache.erase k₀ }) hk.2
    refine ⟨hl.trans ?_, hc.trans ?_⟩
    · simp [TreeMap.getElem?_erase, Ne.symm hk.1]
    · simp [TreeMap.getElem?_erase, Ne.symm hk.1]

/-- Only logics that were called are discarded at the end of the input. -/
theorem eofPhase_sleeps {eof : Bool} (h : eofPhase logic eof e s = some (s₁, o)) : Sleeps s s₁ := by
  cases eof with
  | false =>
    simp only [eofPhase, Bool.false_eq_true, if_false, Option.some.injEq, Prod.mk.injEq] at h
    obtain ⟨rfl, rfl⟩ := h
    exact .refl s
  | true =>
    obtain ⟨t, o', hr⟩ := run_eofStep logic e s s.logics.toList
    rw [eofPhase_true hr] at h
    simp only [Option.some.injEq, Prod.mk.injEq] at h
    obtain ⟨rfl, rfl⟩ := h
    have hwoken := (wakes_eofStep.run hr).1
    refine (sleeps_run (fun _ _ _ _ => eofStep_sleeps) hr).trans fun k hk => ?_
    rw [removeKeys_awoken] at hk
    refine ⟨hk, removeKeys_of_not_mem _ fun hmem => hk ?_⟩
    obtain ⟨x, hx, hdisc⟩ := List.mem_filterMap.mp hmem
    refine (hwoken.awoken k).mpr (.inr ⟨x, hx, ?_⟩)
    unfold discardedKey at hdisc
    split at hdisc
    · exact Option.some.inj hdisc
    · cases hdisc

/-! ### What asking does to the cache -/

theorem getElem?_noteSched (logics : TreeMap K L) (cache : TreeMap K Int) (k k₀ : K) :
    (noteSched logic logics cache k₀)[k]? =
      if k₀ = k then (logics[k]?.bind logic.notifyAt).or cache[k]? else cache[k]? := by
  unfold noteSched
  by_cases hk : k₀ = k
  · subst hk
    rw [if_pos rfl]
    cases logics[k₀]?.bind logic.notifyAt with
    | none => rfl
    | some sched => simp
  · rw [if_neg hk]
    cases logics[k₀]?.bind logic.notifyAt with
    | none => rfl
    | some sched => simp [TreeMap.getElem?_insert, hk]

theorem getElem?_foldl_noteSched (logics : TreeMap K L) (keys : List K) (cache : TreeMap K Int)
    (k : K) : (keys.foldl (noteSched logic logics) cache)[k]? =
      if k ∈ keys then (logics[k]?.bind logic.notifyAt).or cache[k]? else cache[k]? := by
  induction keys generalizing cache with
  | nil => simp
  | cons k₀ keys ih =>
    rw [List.foldl_cons, ih, getElem?_noteSched]
    by_cases hk₀ : k₀ = k
    · subst hk₀
      by_cases hk : k₀ ∈ keys
      · cases logics[k₀]?.bind logic.notifyAt with
        | none => simp
        | some sched => simp
      · simp [hk]
    · by_cases hk : k ∈ keys
      · simp [hk, hk₀]
      · simp [hk, hk₀, Ne.symm hk₀]

theorem getElem?_updateSched (s : UnaryKeys K L) (k : K) :
    (updateSched logic s).schedCache[k]? =
      if k ∈ s.awokenKeysBuffer then (s.logics[k]?.bind logic.notifyAt).or s.schedCache[k]?
      else s.schedCache[k]? := by
  show (List.foldl _ _ _)[k]? = _
  rw [getElem?_foldl_noteSched]
  simp only [TreeSet.mem_toList]

theorem Current.backed (h : Current logic s) : Backed s := by
  intro k hk
  rw [← TreeMap.isSome_getElem?_iff_mem, h k] at hk
  rw [← TreeMap.isSome_getElem?_iff_mem]
  cases hl : s.logics[k]? with
  | none =>
    rw [hl] at hk
    cases hk
  | some l => rfl

/-- When the awoken logics are asked, one that answers `None` has no time in the cache. -/
def AskedFresh (logic : UnaryLogic V W S L) (s : UnaryKeys K L) : Prop :=
  ∀ k ∈ s.awokenKeysBuffer, ∀ l, s.logics[k]? = some l → logic.notifyAt l = none → k ∉ s.schedCache

/-- When a loaded logic is asked and answers `None`, there is no time in the cache for its key. -/
def LoadedFresh (logic : UnaryLogic V W S L) (now : Int) (s : UnaryKeys K L)
    (load : K × StateChange S) : Prop :=
  ∀ state, load.2 = .upsert state → logic.notifyAt (logic.builder now (some state)) = none →
    load.1 ∉ s.schedCache

/-- Asking the awoken logics makes the cache current, if none of them takes back a time. -/
theorem Current.asked (h : Current logic s) (hs : Sleeps s s₁) (hb : Backed s₁)
    (hfresh : AskedFresh logic s₁) : Current logic (updateSched logic s₁) := by
  intro k
  rw [getElem?_updateSched, updateSched_logics]
  by_cases hk : k ∈ s₁.awokenKeysBuffer
  · rw [if_pos hk]
    have hgone : s₁.logics[k]?.bind logic.notifyAt = none → s₁.schedCache[k]? = none := by
      intro hnone
      refine TreeMap.getElem?_eq_none ?_
      cases hl : s₁.logics[k]? with
      | none =>
        intro hmem
        have hmem := TreeMap.isSome_getElem?_iff_mem.mpr (hb k hmem)
        rw [hl] at hmem
        cases hmem
      | some l =>
        rw [hl] at hnone
        exact hfresh k hk l hl hnone
    cases hsched : s₁.logics[k]?.bind logic.notifyAt with
    | none => exact hgone hsched
    | some sched => rfl
  · obtain ⟨-, hl, hc⟩ := hs k hk
    rw [if_neg hk, hl, hc]
    exact h k

theorem Current.loaded {load : K × StateChange S} (h : Current logic s)
    (hfresh : LoadedFresh logic now s load) : Current logic (applyLoad logic now s load) := by
  obtain ⟨k₀, change⟩ := load
  intro k
  cases change with
  | discard =>
    simp only [Unary.applyLoad, TreeMap.getElem?_erase]
    split
    · rfl
    · exact h k
  | upsert state =>
    by_cases hk : k₀ = k
    · subst hk
      cases hn : logic.notifyAt (logic.builder now (some state)) with
      | none =>
        have hgone : s.schedCache[k₀]? = none :=
          TreeMap.getElem?_eq_none (hfresh state rfl hn)
        simp [Unary.applyLoad, hn, hgone]
      | some sched => simp [Unary.applyLoad, hn]
    · have hsame := h k
      cases hn : logic.notifyAt (logic.builder now (some state)) with
      | none => simpa [Unary.applyLoad, hn, TreeMap.getElem?_insert, hk] using hsame
      | some sched => simpa [Unary.applyLoad, hn, TreeMap.getElem?_insert, hk] using hsame

/-! ### The cache holds the times that stand -/

section Noted

variable {h : List (SchedEvent K)}

theorem Noted.item {item : K × V} (hn : Noted h s)
    (hs : itemStep logic now e s item = some (s₁, o)) : Noted (h ++ o.filterMap schedEvent) s₁ := by
  rcases hl : logic.onItem (s.logics.getD item.1 (logic.builder now none)) now item.2 with
    ⟨l, emit, isComplete⟩
  rw [itemStep, hl] at hs
  simp only [Option.some.injEq, Prod.mk.injEq] at hs
  obtain ⟨rfl, rfl⟩ := hs
  intro k
  rw [standing_append, ← hn k]
  cases isComplete with
  | retain => rfl
  | discard => simp [schedEvent, SchedEvent.next, TreeMap.getElem?_erase]

theorem Noted.notify {entry : K × Int} (hn : Noted h s)
    (hs : notifyStep logic e s entry = some (s₁, o)) : Noted (h ++ o.filterMap schedEvent) s₁ := by
  obtain ⟨l, -, hs⟩ := Option.bind_eq_some_iff.mp hs
  rcases hl : logic.onNotify l entry.2 with ⟨l', emit, isComplete⟩
  rw [hl] at hs
  simp only [pure, Option.some.injEq, Prod.mk.injEq] at hs
  obtain ⟨rfl, rfl⟩ := hs
  intro k
  rw [standing_append, ← hn k]
  cases isComplete with
  | retain => simp [schedEvent, SchedEvent.next, TreeMap.getElem?_erase]
  | discard => simp [schedEvent, SchedEvent.next, TreeMap.getElem?_erase]

theorem Noted.removed (hn : Noted h s) (keys : List K) :
    Noted (h ++ keys.map .dropped) (removeKeys s keys) := by
  induction keys generalizing h s with
  | nil => simpa [removeKeys] using hn
  | cons key keys ih =>
    rw [List.map_cons, List.append_cons]
    refine ih fun k => ?_
    rw [standing_append, ← hn k]
    simp [SchedEvent.next, TreeMap.getElem?_erase]

/-- The end-of-input calls leave the cache as it is, and say which keys are discarded. -/
theorem run_eofStep_sched {entries : List (K × L)}
    (hr : Runs.run (eofStep logic e) s entries = some (s₁, o)) : s₁.schedCache = s.schedCache ∧
      o.filterMap schedEvent = (o.filterMap discardedKey).map .dropped := by
  refine Runs.run_history (Q := fun _ _ => True) (P := fun _ s₁ o => s₁.schedCache = s.schedCache ∧
    o.filterMap schedEvent = (o.filterMap discardedKey).map .dropped) ?_ ⟨rfl, rfl⟩
    (Runs.along_true _ _) hr
  rintro - t o entry t₁ o₁ ⟨hc, ho⟩ - hs
  rcases hl : logic.onEof entry.2 with ⟨l, emit, isComplete⟩
  rw [eofStep, hl] at hs
  simp only [Option.some.injEq, Prod.mk.injEq] at hs
  obtain ⟨rfl, rfl⟩ := hs
  refine ⟨hc, ?_⟩
  rw [List.filterMap_append, List.filterMap_append, List.map_append, ho]
  cases isComplete with
  | retain => rfl
  | discard => rfl

theorem Noted.eof {eof : Bool} (hn : Noted h s) (hs : eofPhase logic eof e s = some (s₁, o)) :
    Noted (h ++ o.filterMap schedEvent) s₁ := by
  cases eof with
  | false =>
    cases hs
    simpa using hn
  | true =>
    obtain ⟨t, o', hr⟩ := run_eofStep logic e s s.logics.toList
    rw [eofPhase_true hr] at hs
    cases hs
    obtain ⟨hcache, hevents⟩ := run_eofStep_sched hr
    have ht : Noted h t := fun k => hcache ▸ hn k
    rw [hevents]
    exact ht.removed _

theorem Noted.run {ι : Type} {is : List ι}
    {step : UnaryKeys K L → ι → Option (UnaryKeys K L × List (UnaryEvent K V W S))}
    (hstep : ∀ h s i s₁ o₁, Noted h s → step s i = some (s₁, o₁) →
      Noted (h ++ o₁.filterMap schedEvent) s₁)
    (hn : Noted h s) (hr : Runs.run step s is = some (s₁, o)) :
    Noted (h ++ o.filterMap schedEvent) s₁ := by
  refine Runs.run_history (Q := fun _ _ => True)
    (P := fun _ s o => Noted (h ++ o.filterMap schedEvent) s) (fun _ t o i t₁ o₁ ht _ hs => ?_)
    (by simpa using hn) (Runs.along_true _ _) hr
  rw [List.filterMap_append, ← List.append_assoc]
  exact hstep _ _ _ _ _ ht hs

theorem Noted.phases {eof : Bool} {items : List (K × V)} {t₁ t₂ t₃ : UnaryKeys K L}
    {o₁ o₂ o₃ : List (UnaryEvent K V W S)} (hn : Noted h s)
    (h₁ : Runs.run (itemStep logic now e) s items = some (t₁, o₁))
    (h₂ : Runs.run (notifyStep logic e) t₁ (notifyKeys now t₁) = some (t₂, o₂))
    (h₃ : eofPhase logic eof e t₂ = some (t₃, o₃)) :
    Noted (h ++ (o₁ ++ o₂ ++ o₃).filterMap schedEvent) t₃ := by
  have hn₁ := hn.run (fun _ _ _ _ _ => Noted.item) h₁
  have hn₂ := hn₁.run (fun _ _ _ _ _ => Noted.notify) h₂
  have hn₃ := hn₂.eof h₃
  rwa [List.append_assoc, List.append_assoc, ← List.filterMap_append, ← List.filterMap_append,
    ← List.append_assoc] at hn₃

/-- The cache takes over the times that are answered. -/
theorem Noted.asked (hn : Noted h s) :
    Noted (h ++ answers logic s) (updateSched logic s) := by
  intro k
  rw [standing_append, ← hn k]
  show (List.foldl (noteSched logic s.logics) s.schedCache s.awokenKeysBuffer.toList)[k]? = _
  rw [answers]
  generalize s.awokenKeysBuffer.toList = keys
  generalize s.schedCache = cache
  induction keys generalizing cache with
  | nil => rfl
  | cons key keys ih =>
    rw [List.foldl_cons, ih, getElem?_noteSched, List.filterMap_cons]
    cases hl : s.logics[key]? with
    | none =>
      by_cases hk : key = k
      · subst hk
        rw [if_pos rfl, hl]
        rfl
      · rw [if_neg hk]
        rfl
    | some l =>
      show List.foldl _ _ _ = List.foldl _ (SchedEvent.next k cache[k]? _) _
      congr 1
      by_cases hk : key = k
      · subst hk
        rw [if_pos rfl, hl]
        cases hn : logic.notifyAt l with
        | none => simp [SchedEvent.next, hn]
        | some sched => simp [SchedEvent.next, hn]
      · rw [if_neg hk]
        exact (SchedEvent.next_answered_ne hk _ _).symm

theorem Noted.load (hn : Noted h s) (load : K × StateChange S) :
    Noted (h ++ [loadAnswer logic now load]) (Unary.applyLoad logic now s load) := by
  obtain ⟨key, change⟩ := load
  intro k
  rw [standing_append, ← hn k]
  cases change with
  | discard => simp [Unary.applyLoad, loadAnswer, SchedEvent.next, TreeMap.getElem?_erase]
  | upsert state =>
    cases hat : logic.notifyAt (logic.builder now (some state)) with
    | none => simp [Unary.applyLoad, loadAnswer, SchedEvent.next, hat]
    | some sched =>
      simp [Unary.applyLoad, loadAnswer, SchedEvent.next, hat, TreeMap.getElem?_insert]

/-- A logic that answers `None` when it is asked has no time in the cache. -/
theorem NoneTakenBack.askedFresh (hc : NoneTakenBack (h ++ answers logic s)) (hn : Noted h s) :
    AskedFresh logic s := by
  intro k hk l hl hnone
  have hin : .answered k none ∈ answers logic s :=
    List.mem_filterMap.mpr ⟨k, TreeSet.mem_toList.mpr hk, by rw [hl, Option.map_some, hnone]⟩
  obtain ⟨pre, post, hsplit⟩ := List.append_of_mem hin
  rw [hsplit, ← List.append_assoc] at hc
  have hstands := hc.standing_eq
  -- the other answers are of other keys, or of this one and also `None`
  have hothers : ∀ x ∈ pre, SchedEvent.next k s.schedCache[k]? x = s.schedCache[k]? := by
    intro x hx
    have hx : x ∈ answers logic s := hsplit ▸ List.mem_append_left _ hx
    obtain ⟨key, -, hkey⟩ := List.mem_filterMap.mp hx
    obtain ⟨l', hl', rfl⟩ := Option.map_eq_some_iff.mp hkey
    by_cases he : key = k
    · subst he
      rw [hl] at hl'
      cases hl'
      rw [hnone]
      rfl
    · exact SchedEvent.next_answered_ne he _ _
  rw [standing_append, ← hn k, foldl_next_eq hothers] at hstands
  intro hmem
  have hsome := TreeMap.isSome_getElem?_iff_mem.mpr hmem
  rw [hstands] at hsome
  cases hsome

theorem NoneTakenBack.loadedFresh {load : K × StateChange S}
    (hc : NoneTakenBack (h ++ [loadAnswer logic now load])) (hn : Noted h s) :
    LoadedFresh logic now s load := by
  intro state hstate hnone hmem
  rw [loadAnswer, hstate] at hc
  dsimp only at hc
  rw [hnone] at hc
  have hsome := TreeMap.isSome_getElem?_iff_mem.mpr hmem
  rw [hn, hc.standing_eq] at hsome
  cases hsome

end Noted

/-! ### Epochs and activations -/

/-- The cache is current, and it holds the times that stand. -/
structure Kept (logic : UnaryLogic V W S L) (h : List (SchedEvent K)) (s : UnaryKeys K L) : Prop where
  current : Current logic s
  noted : Noted h s

theorem Kept.loads {h : List (SchedEvent K)} {loads : List (K × StateChange S)} (hk : Kept logic h s)
    (hc : NoneTakenBack (h ++ loads.map (loadAnswer logic now))) :
    Kept logic (h ++ loads.map (loadAnswer logic now)) (loads.foldl (Unary.applyLoad logic now) s) := by
  induction loads generalizing h s with
  | nil => simpa using hk
  | cons load loads ih =>
    rw [List.map_cons, List.append_cons] at hc ⊢
    have hload := (NoneTakenBack.of_append _ _ hc).loadedFresh hk.noted
    exact ih ⟨hk.current.loaded hload, hk.noted.load load⟩ hc

/-- The phases of an epoch that may call logics leave those that they did not call as they are. -/
theorem phases_sleep {eof : Bool} {items : List (K × V)} {t₁ t₂ t₃ : UnaryKeys K L}
    {o₁ o₂ o₃ : List (UnaryEvent K V W S)}
    (h₁ : Runs.run (itemStep logic now e) s items = some (t₁, o₁))
    (h₂ : Runs.run (notifyStep logic e) t₁ (notifyKeys now t₁) = some (t₂, o₂))
    (h₃ : eofPhase logic eof e t₂ = some (t₃, o₃)) : Sleeps s t₃ :=
  ((sleeps_run (fun _ _ _ _ => itemStep_sleeps) h₁).trans
    (sleeps_run (fun _ _ _ _ => notifyStep_sleeps) h₂)).trans (eofPhase_sleeps h₃)

theorem phases_backed {eof : Bool} {items : List (K × V)} {t₁ t₂ t₃ : UnaryKeys K L}
    {o₁ o₂ o₃ : List (UnaryEvent K V W S)} (hb : Backed s)
    (h₁ : Runs.run (itemStep logic now e) s items = some (t₁, o₁))
    (h₂ : Runs.run (notifyStep logic e) t₁ (notifyKeys now t₁) = some (t₂, o₂))
    (h₃ : eofPhase logic eof e t₂ = some (t₃, o₃)) : Backed t₃ := by
  have hb₁ : Backed t₁ := run_itemStep_backed hb h₁
  obtain ⟨s₂, p₂, h₂', hb₂⟩ := run_notifyStep_backed logic now e hb₁
  rw [h₂] at h₂'
  cases h₂'
  obtain ⟨s₃, p₃, h₃', hb₃⟩ := eofPhase_backed logic e eof hb₂
  rw [h₃] at h₃'
  cases h₃'
  exact hb₃

/-- The notifications of an epoch are entries of the cache at its start. -/
theorem sched_of_mem_phases {eof : Bool} {items : List (K × V)} {t₁ t₂ t₃ : UnaryKeys K L}
    {o₁ o₂ o₃ : List (UnaryEvent K V W S)}
    (h₁ : Runs.run (itemStep logic now e) s items = some (t₁, o₁))
    (h₂ : Runs.run (notifyStep logic e) t₁ (notifyKeys now t₁) = some (t₂, o₂))
    (h₃ : eofPhase logic eof e t₂ = some (t₃, o₃)) {k : K} {sched : Int} {emit : List W}
    {isComplete : IsComplete} (hx : .onNotify e k sched emit isComplete ∈ o₁ ++ o₂ ++ o₃) :
    s.schedCache[k]? = some sched := by
  have hitem : ∀ x ∈ o₁, ∀ k sched emit isComplete, x ≠ .onNotify e k sched emit isComplete := by
    intro x hx k sched emit isComplete he
    obtain ⟨item, -, s₁, s₂, o, hs, hx⟩ := Runs.exists_of_mem_run h₁ hx
    cases hs
    rw [List.mem_singleton.mp hx] at he
    cases he
  have heof : ∀ x ∈ o₃, ∀ k sched emit isComplete, x ≠ .onNotify e k sched emit isComplete := by
    intro x hx k sched emit isComplete he
    cases eof with
    | false =>
      cases h₃
      cases hx
    | true =>
      obtain ⟨t, p, hr⟩ := run_eofStep logic e t₂ t₂.logics.toList
      rw [eofPhase_true hr] at h₃
      cases h₃
      obtain ⟨entry, -, s₁, s₂, o, hs, hx⟩ := Runs.exists_of_mem_run hr hx
      cases hs
      rw [List.mem_singleton.mp hx] at he
      cases he
  rw [List.append_assoc, List.mem_append, List.mem_append] at hx
  rcases hx with hx | hx | hx
  · exact absurd rfl (hitem _ hx k sched emit isComplete)
  · obtain ⟨entry, hentry, s₁, s₂, o, hs, hx⟩ := Runs.exists_of_mem_run h₂ hx
    obtain ⟨l, -, hs⟩ := Option.bind_eq_some_iff.mp hs
    simp only [pure, Option.some.injEq, Prod.mk.injEq] at hs
    rw [← hs.2, List.mem_singleton] at hx
    cases hx
    have hcache := (mem_notifyKeys.mp hentry).1
    refine Runs.run_induct (P := fun t => t.schedCache[entry.1]? = some entry.2 →
      s.schedCache[entry.1]? = some entry.2) (Q := fun _ _ => True) ?_ id (Runs.along_true _ _) h₁
      hcache
    exact fun t item t' o ht _ hstep hk => ht (itemStep_sched hstep hk)
  · exact absurd rfl (heof _ hx k sched emit isComplete)

section Epoch

variable {f : Frontier} {s s₁ : UnaryState K V S L}

/-- **Step lemma**: an epoch in which no time is taken back keeps the cache current. -/
theorem Kept.epoch {h : List (SchedEvent K)} (hk : Kept logic h s.keys)
    (hc : NoneTakenBack (h ++ epochHistory logic now f s e))
    (hp : processEpoch logic now f s e = some (s₁, o)) :
    Kept logic (h ++ epochHistory logic now f s e) s₁.keys := by
  obtain ⟨-, keys, called, hcall, hclose⟩ := processEpoch_eq_some.mp hp
  rw [epochHistory, hcall, ← List.append_assoc, ← List.append_assoc] at hc ⊢
  obtain ⟨t₁, o₁, t₂, o₂, t₃, o₃, h₁, h₂, h₃, rfl, rfl⟩ := callPhases_eq_some.mp hcall
  have hphases := hk.noted.phases h₁ h₂ h₃
  have hanswers : answers logic (updateSched logic t₃) = answers logic t₃ := rfl
  rw [hanswers] at hc ⊢
  have hfresh := (NoneTakenBack.of_append _ _ hc).askedFresh hphases
  have hasked : Kept logic (h ++ (o₁ ++ o₂ ++ o₃).filterMap schedEvent ++ answers logic t₃)
      (updateSched logic t₃) :=
    ⟨hk.current.asked (phases_sleep h₁ h₂ h₃) (phases_backed hk.current.backed h₁ h₂ h₃) hfresh,
      hphases.asked⟩
  rcases hclose with ⟨hclosed, rfl, -⟩ | ⟨hopen, rfl, -⟩
  · rw [if_pos hclosed] at hc ⊢
    have hcleared : Kept logic (h ++ (o₁ ++ o₂ ++ o₃).filterMap schedEvent ++ answers logic t₃)
        { updateSched logic t₃ with awokenKeysBuffer := ∅ } := ⟨hasked.current, hasked.noted⟩
    exact hcleared.loads hc
  · rw [if_neg hopen, List.append_nil]
    exact hasked

/-- From a current cache, the notifications of an epoch are of the times answered last. -/
theorem Current.notifiesLatest (h : Current logic s.keys) : NotifiesLatest logic now f s e := by
  refine ⟨h, fun s₁ o hp k sched emit isComplete hx => ?_⟩
  obtain ⟨-, keys, called, hcall, hclose⟩ := processEpoch_eq_some.mp hp
  obtain ⟨t₁, o₁, t₂, o₂, t₃, o₃, h₁, h₂, h₃, -, rfl⟩ := callPhases_eq_some.mp hcall
  have hcalled : .onNotify e k sched emit isComplete ∈ o₁ ++ o₂ ++ o₃ := by
    rcases hclose with ⟨-, -, rfl⟩ | ⟨-, -, rfl⟩
    · rcases List.mem_append.mp hx with hx | hx
      · exact hx
      · simp [mem_snapshots] at hx
    · exact hx
  rw [← h k]
  exact sched_of_mem_phases h₁ h₂ h₃ hcalled

variable {resumeEpoch : Nat}

theorem Kept.inEpochs {a : Activation K V S} {h : List (SchedEvent K)} (hk : Kept logic h s.keys)
    (hc : NoneTakenBack (h ++ activationHistory logic resumeEpoch s a)) :
    InEpochs logic resumeEpoch (NotifiesLatest logic) s a := by
  intro c hcap
  rw [activationHistory, hcap] at hc
  have hbuf : Kept logic h (buffered s a).keys := hk
  exact Runs.along_observe (P := fun h t => Kept logic h t.keys) NoneTakenBack.of_append
    (fun _ _ _ _ _ ht hc hs => ht.epoch hc hs) (fun _ _ _ ht _ => ht.current.notifiesLatest) hbuf hc

/-- An activation in which no time is taken back keeps the cache current. -/
theorem Kept.activation {a : Activation K V S} {h : List (SchedEvent K)} (hk : Kept logic h s.keys)
    (hc : NoneTakenBack (h ++ activationHistory logic resumeEpoch s a))
    (ha : activate logic resumeEpoch s a = some (s₁, o)) :
    Kept logic (h ++ activationHistory logic resumeEpoch s a) s₁.keys := by
  cases hcap : s.cap with
  | none =>
    rw [activate_none hcap] at ha
    cases ha
    rw [activationHistory, hcap, List.append_nil]
    exact hk
  | some c =>
    rw [activate_some hcap] at ha
    obtain ⟨⟨t, p⟩, hr, he⟩ := Option.map_eq_some_iff.mp ha
    cases he
    rw [activationHistory, hcap] at hc ⊢
    have hbuf : Kept logic h (buffered s a).keys := hk
    exact Runs.run_observe (P := fun h t => Kept logic h t.keys) NoneTakenBack.of_append
      (fun _ _ _ _ _ ht hc hs => ht.epoch hc hs) hbuf hc hr

theorem kept_init : Kept logic [] (init : UnaryState K V S L).keys where
  current k := by simp [init]
  noted k := by simp [init, standing]

end Epoch

/-- **The latest answer is honoured** in every run in which no logic answers `None` while a time that
was answered for its key has neither fired nor been dropped: after each activation the cache holds
what each logic answered last, and so it does before each epoch, when all answers are those of the
logics as they are; and a logic is only notified of the time that it answered last. -/
theorem latest_answer_honoured (logic : UnaryLogic V W S L) (resumeEpoch : Nat)
    {as : List (Activation K V S)} (has : Schedule (some 0) (some 0) as) :
    ∃ s events, Runs.run (activate logic resumeEpoch) init as = some (s, events) ∧
      (NoneTakenBack (history logic resumeEpoch as) →
        Current logic s.keys ∧ Runs.Along (activate logic resumeEpoch)
          (fun s a => Current logic s.keys ∧ InEpochs logic resumeEpoch (NotifiesLatest logic) s a)
          init as) := by
  have hrun : ∃ s events, Runs.run (activate logic resumeEpoch) init as = some (s, events) :=
    run_activate (show Ready (Frontier.both (some 0) (some 0)) _ from ready_init) has
  obtain ⟨s, events, hr⟩ := hrun
  refine ⟨s, events, hr, fun hc => ⟨?_, ?_⟩⟩
  · exact (Runs.run_observe (P := fun h s => Kept logic h s.keys) NoneTakenBack.of_append
      (fun _ _ _ _ _ hk hc ha => hk.activation hc ha) kept_init hc hr).current
  · exact Runs.along_observe (P := fun h s => Kept logic h s.keys) NoneTakenBack.of_append
      (fun _ _ _ _ _ hk hc ha => hk.activation hc ha)
      (fun _ _ _ hk hc => ⟨hk.current, hk.inEpochs hc⟩) kept_init hc

/-- A logic whose values are the times at which it wants to be notified, if at all. -/
def alarm : UnaryLogic (Option Int) Int (Option Int) (Option Int) where
  builder _ resumeState := resumeState.join
  onItem _ _ value := (value, [], .retain)
  onNotify _ sched := (none, [sched], .retain)
  onEof l := (l, [], .retain)
  notifyAt l := l
  snapshot l := l

/-- Items of key 7 in epoch 0, which stays open. -/
def keySeven {V S : Type} (now : Int) (values : List V) : Activation Nat V S where
  now := now
  items := [(0, values.map fun value => (7, value))]
  loads := []
  itemsFrontier := some 0
  loadsFrontier := none

theorem schedule_keySeven {V S : Type} (fl : Frontier) (as : List (Int × List V)) :
    Schedule (some 0) fl (as.map fun a => (keySeven a.1 a.2 : Activation Nat V S)) := by
  induction as generalizing fl with
  | nil => trivial
  | cons a as ih =>
    refine ⟨⟨fun b hb => ⟨0, rfl, Nat.zero_le _⟩, List.forall_mem_nil _, Frontier.Le.refl _, ?_⟩,
      ih none⟩
    rintro t ⟨⟩

/-- A time is set, set to an earlier one, and both are past. -/
def movedUp : List (Activation Nat (Option Int) (Option Int)) :=
  [(0, [some 100]), (1, [some 50]), (200, [])].map fun a => keySeven a.1 a.2

/-- The last answer is `None`, but after the time has fired. -/
theorem history_movedUp : history alarm 0 movedUp =
    [.answered 7 (some 100), .answered 7 (some 50), .notified 7, .answered 7 none] := by
  decide +kernel

theorem noneTakenBack_movedUp : NoneTakenBack (history alarm 0 movedUp) := by
  rw [history_movedUp]
  rintro k pre post he sched ⟨pre', mid, hpre, hnot, -⟩
  have hlast : pre = [.answered 7 (some 100), .answered 7 (some 50)] ++ [.notified 7] ∧ k = 7 := by
    rcases pre with _ | ⟨a, _ | ⟨b, _ | ⟨c, _ | ⟨d, pre⟩⟩⟩⟩ <;> simp at he
    obtain ⟨rfl, rfl, rfl, rfl, -⟩ := he
    exact ⟨rfl, rfl⟩
  obtain ⟨rfl, rfl⟩ := hlast
  rcases Runs.split_concat hpre with ⟨-, hx, -⟩ | ⟨mid', rfl, -⟩
  · cases hx
  · exact hnot (List.mem_append_right _ (List.mem_singleton_self _))

theorem latest_answer_honoured_movedUp :
    Schedule (some 0) (some 0) movedUp ∧ NoneTakenBack (history alarm 0 movedUp) ∧
    ∃ s events, Runs.run (activate alarm 0) init movedUp = some (s, events) ∧
      Current alarm s.keys ∧ Runs.Along (activate alarm 0)
        (fun s a => Current alarm s.keys ∧ InEpochs alarm 0 (NotifiesLatest alarm) s a)
        init movedUp := by
  have has : Schedule (some 0) (some 0) movedUp := schedule_keySeven (some 0) _
  obtain ⟨s, events, hr, h⟩ := latest_answer_honoured alarm 0 has
  exact ⟨has, noneTakenBack_movedUp, s, events, hr, h noneTakenBack_movedUp⟩

/-! ### A logic that takes back its time -/

/-- A time is set and then taken back, and then it is past. -/
def takenBack : List (Activation Nat (Option Int) (Option Int)) :=
  [(0, [some 100]), (1, [none]), (200, [])].map fun a => keySeven a.1 a.2

/-- The time that was taken back stays in the cache, and the logic is notified of it. -/
theorem not_latest_answer_honoured :
    Schedule (some 0) (some 0) takenBack ∧
    (∃ s events, Runs.run (activate alarm 0) init (takenBack.take 2) = some (s, events) ∧
      s.keys.schedCache[7]? = some 100 ∧ s.keys.logics[7]?.bind alarm.notifyAt = none ∧
      ¬ Current alarm s.keys) ∧
    (Runs.run (activate alarm 0) init takenBack).map Prod.snd =
      some [.onItem 0 7 (some 100) [] .retain, .onItem 0 7 none [] .retain,
        .onNotify 0 7 100 [100] .retain] := by
  refine ⟨schedule_keySeven (some 0) _, ?_, by decide +kernel⟩
  have hkeys : (Runs.run (activate alarm 0) init (takenBack.take 2)).map
      (fun p => (p.1.keys.schedCache[7]?, p.1.keys.logics[7]?.bind alarm.notifyAt)) =
        some (some 100, none) := by
    decide +kernel
  obtain ⟨⟨s, events⟩, hr, he⟩ := Option.map_eq_some_iff.mp hkeys
  obtain ⟨hsched, hanswer⟩ := Prod.mk.inj he
  refine ⟨s, events, hr, hsched, hanswer, fun h => ?_⟩
  have hseven := h 7
  rw [hsched, hanswer] at hseven
  cases hseven

end Unary
end Bytewax
