import Bytewax.Operators.UnaryEof
import Bytewax.Operators.UnarySpec

/-!
# Bytewax.Operators.UnaryTrace — a run as one key sees it

The events of a run that concern a key are the life of its logic: it is built for an item, called,
discarded, built again (`KeyRun`).  A statement about the logics that a key has had, the values it
has been given and the values it has sent is proved by showing what one event does (`KeyRun.induct`).
Every item that is delivered is given to a logic once, in the order of the epochs (`Delivery`).
-/

namespace Bytewax

open Std (TreeMap TreeSet)

/-- The item of an `on_item` call. -/
def UnaryEvent.item? {K V W S : Type} : UnaryEvent K V W S → Option (K × V)
  | .onItem _ key value _ _ => some (key, value)
  | _ => none

namespace Unary

variable {K V W S L : Type}

/-- The items that are given to logics, in order. -/
def given (events : List (UnaryEvent K V W S)) : List (K × V) :=
  events.filterMap UnaryEvent.item?

@[simp] theorem given_nil : given ([] : List (UnaryEvent K V W S)) = [] := rfl

@[simp] theorem given_append (o₁ o₂ : List (UnaryEvent K V W S)) :
    given (o₁ ++ o₂) = given o₁ ++ given o₂ :=
  List.filterMap_append

theorem given_eq_nil {o : List (UnaryEvent K V W S)} (h : ∀ x ∈ o, x.item? = none) :
    given o = [] :=
  List.filterMap_eq_nil_iff.mpr h

/-- The items given to logics in an epoch. -/
def givenIn (e : Nat) (events : List (UnaryEvent K V W S)) : List (K × V) :=
  given (events.filter fun x => x.epoch = e)

@[simp] theorem givenIn_append (e : Nat) (o₁ o₂ : List (UnaryEvent K V W S)) :
    givenIn e (o₁ ++ o₂) = givenIn e o₁ ++ givenIn e o₂ := by
  simp [givenIn]

section KeyRun

variable (logic : UnaryLogic V W S L) (k : K)

/-- What an event of a key does to the logic of the key. -/
inductive KeyStep : Option L → UnaryEvent K V W S → Option L → Prop
  | onItem (l : Option L) (e : Nat) (now : Int) (v : V) :
    KeyStep l (.onItem e k v (callItem logic now l v).2.1 (callItem logic now l v).2.2)
      (kept (callItem logic now l v))
  | onNotify (l : L) (e : Nat) (sched : Int) :
    KeyStep (some l) (.onNotify e k sched (logic.onNotify l sched).2.1 (logic.onNotify l sched).2.2)
      (kept (logic.onNotify l sched))
  | onEof (l : L) (e : Nat) :
    KeyStep (some l) (.onEof e k (logic.onEof l).2.1 (logic.onEof l).2.2) (kept (logic.onEof l))
  | snap (l : Option L) (e : Nat) : KeyStep l (.snap e k (changeOf logic l)) l
  | load (l : Option L) (e : Nat) (now : Int) (change : StateChange S) :
    KeyStep l (.load e k change) (loadOne logic now l change)

/-- The events take the logic of the key from one to another. -/
inductive KeyRun : Option L → List (UnaryEvent K V W S) → Option L → Prop
  | nil (l : Option L) : KeyRun l [] l
  | other {l l' : Option L} {x : UnaryEvent K V W S} {xs : List (UnaryEvent K V W S)} :
    x.key ≠ k → KeyRun l xs l' → KeyRun l (x :: xs) l'
  | step {l l₁ l' : Option L} {x : UnaryEvent K V W S} {xs : List (UnaryEvent K V W S)} :
    KeyStep logic k l x l₁ → KeyRun l₁ xs l' → KeyRun l (x :: xs) l'

end KeyRun

variable {logic : UnaryLogic V W S L} {k : K} {l l₁ l₂ : Option L} {now : Int} {e : Nat}
  {o o₁ o₂ : List (UnaryEvent K V W S)}

theorem KeyStep.key_eq {x : UnaryEvent K V W S} (h : KeyStep logic k l x l₁) : x.key = k := by
  cases h <;> rfl

theorem KeyRun.append (h₁ : KeyRun logic k l o₁ l₁) (h₂ : KeyRun logic k l₁ o₂ l₂) :
    KeyRun logic k l (o₁ ++ o₂) l₂ := by
  induction h₁ with
  | nil => exact h₂
  | other hk _ ih => exact .other hk (ih h₂)
  | step hs _ ih => exact .step hs (ih h₂)

theorem KeyRun.single {x : UnaryEvent K V W S} (h : KeyStep logic k l x l₁) :
    KeyRun logic k l [x] l₁ :=
  .step h (.nil l₁)

/-- The events of other keys. -/
theorem KeyRun.others (l : Option L) (h : ∀ x ∈ o, x.key ≠ k) : KeyRun logic k l o l := by
  induction o with
  | nil => exact .nil l
  | cons x o ih => exact .other (h x (by simp)) (ih fun y hy => h y (List.mem_cons_of_mem _ hy))

/-- **What each event of a key preserves, the run preserves.** -/
theorem KeyRun.induct_append {P : Option L → List (UnaryEvent K V W S) → Prop}
    {Q : UnaryEvent K V W S → Prop} (hother : ∀ l xs x, x.key ≠ k → P l xs → P l (xs ++ [x]))
    (hstep : ∀ l xs x l₁, Q x → KeyStep logic k l x l₁ → P l xs → P l₁ (xs ++ [x]))
    (h : KeyRun logic k l o l₁) (hQ : ∀ x ∈ o, Q x) {pre : List (UnaryEvent K V W S)}
    (h0 : P l pre) : P l₁ (pre ++ o) := by
  induction h generalizing pre with
  | nil l => simpa using h0
  | other hk _ ih =>
    simpa using ih (fun x hx => hQ x (List.mem_cons_of_mem _ hx)) (hother _ _ _ hk h0)
  | step hs _ ih =>
    simpa using ih (fun x hx => hQ x (List.mem_cons_of_mem _ hx)) (hstep _ _ _ _ (hQ _ (by simp)) hs h0)

theorem KeyRun.induct {P : Option L → List (UnaryEvent K V W S) → Prop}
    {Q : UnaryEvent K V W S → Prop} (hother : ∀ l xs x, x.key ≠ k → P l xs → P l (xs ++ [x]))
    (hstep : ∀ l xs x l₁, Q x → KeyStep logic k l x l₁ → P l xs → P l₁ (xs ++ [x]))
    (h : KeyRun logic k l o l₁) (hQ : ∀ x ∈ o, Q x) (h0 : P l []) : P l₁ o :=
  h.induct_append hother hstep hQ h0

variable [LinearOrder K] {s s₁ : UnaryKeys K L}

/-- The values sent downstream for a key, in order. -/
def sent (k : K) (events : List (UnaryEvent K V W S)) : List W :=
  events.flatMap fun x => if x.key = k then x.emit else []

@[simp] theorem sent_nil (k : K) : sent k ([] : List (UnaryEvent K V W S)) = [] := rfl

@[simp] theorem sent_append (k : K) (o₁ o₂ : List (UnaryEvent K V W S)) :
    sent k (o₁ ++ o₂) = sent k o₁ ++ sent k o₂ :=
  List.flatMap_append

/-- The values given to the logic of a key, in order. -/
def received (k : K) (events : List (UnaryEvent K V W S)) : List V :=
  Keyed.valuesOf k (given events)

section

variable {events : List (UnaryEvent K V W S)} {x : UnaryEvent K V W S}

theorem sent_concat_of_ne (hk : x.key ≠ k) : sent k (events ++ [x]) = sent k events := by
  simp [sent, hk]

theorem received_concat_of_ne (hk : x.key ≠ k) : received k (events ++ [x]) = received k events := by
  have hnone : Keyed.valuesOf k (given [x]) = [] := by
    cases x with
    | onItem e key value emit isComplete =>
      have hkey : key ≠ k := hk
      show Keyed.valuesOf k [(key, value)] = []
      rw [Keyed.valuesOf_cons, if_neg hkey]
      rfl
    | onNotify | onEof | snap | load => rfl
  rw [received, given_append, Keyed.valuesOf_append, hnone, List.append_nil]
  rfl

theorem sent_concat (hk : x.key = k) : sent k (events ++ [x]) = sent k events ++ x.emit := by
  simp [sent, hk]

theorem sent_concat_onItem (v : V) (emit : List W) (isComplete : IsComplete) :
    sent k (events ++ [.onItem e k v emit isComplete]) = sent k events ++ emit :=
  sent_concat rfl

theorem sent_concat_onNotify (sched : Int) (emit : List W) (isComplete : IsComplete) :
    sent k (events ++ [.onNotify e k sched emit isComplete]) = sent k events ++ emit :=
  sent_concat rfl

theorem sent_concat_onEof (emit : List W) (isComplete : IsComplete) :
    sent k (events ++ [.onEof e k emit isComplete]) = sent k events ++ emit :=
  sent_concat rfl

theorem sent_concat_snap (change : StateChange S) :
    sent k (events ++ [.snap e k change]) = sent k events := by
  have hkey : (UnaryEvent.snap e k change : UnaryEvent K V W S).key = k := rfl
  rw [sent_concat hkey]
  exact List.append_nil _

theorem received_concat (hi : x.item? = none) : received k (events ++ [x]) = received k events := by
  rw [received, given_append, given_eq_nil (o := [x]) (by simpa using hi), List.append_nil]
  rfl

theorem received_concat_onItem (v : V) (emit : List W) (isComplete : IsComplete) :
    received k (events ++ [.onItem e k v emit isComplete]) = received k events ++ [v] := by
  have hitem : given [(.onItem e k v emit isComplete : UnaryEvent K V W S)] = [(k, v)] := rfl
  rw [received, given_append, hitem, Keyed.valuesOf_append, Keyed.valuesOf_cons, if_pos rfl]
  rfl

end

/-! ### The loops of an epoch -/

theorem itemStep_keyRun {item : K × V} (h : itemStep logic now e s item = some (s₁, o)) (k : K) :
    KeyRun logic k s.logics[k]? o s₁.logics[k]? := by
  have hget : s.logics.getD item.1 (logic.builder now none) =
      s.logics[item.1]?.getD (logic.builder now none) := TreeMap.getD_eq_getD_getElem?
  rcases hl : callItem logic now s.logics[item.1]? item.2 with ⟨l, emit, isComplete⟩
  have hl' := hl
  rw [callItem, ← hget] at hl'
  rw [itemStep, hl'] at h
  simp only [Option.some.injEq, Prod.mk.injEq] at h
  obtain ⟨rfl, rfl⟩ := h
  by_cases hk : item.1 = k
  · subst hk
    have hcall : KeyStep logic item.1 s.logics[item.1]? _ _ := .onItem _ e now item.2
    have hstep := KeyRun.single hcall
    rw [hl] at hstep
    cases isComplete with
    | discard => simpa [kept] using hstep
    | retain => simpa [kept] using hstep
  · have hsame : KeyRun logic k s.logics[k]?
        [(.onItem e item.1 item.2 emit isComplete : UnaryEvent K V W S)] s.logics[k]? :=
      .others _ (by simpa [UnaryEvent.key] using hk)
    cases isComplete with
    | discard => simpa [TreeMap.getElem?_erase, hk] using hsame
    | retain => simpa [TreeMap.getElem?_insert, hk] using hsame

theorem notifyStep_keyRun {entry : K × Int} (h : notifyStep logic e s entry = some (s₁, o)) (k : K) :
    KeyRun logic k s.logics[k]? o s₁.logics[k]? := by
  obtain ⟨l, hget, h⟩ := Option.bind_eq_some_iff.mp h
  rcases hl : logic.onNotify l entry.2 with ⟨l', emit, isComplete⟩
  rw [hl] at h
  simp only [pure, Option.some.injEq, Prod.mk.injEq] at h
  obtain ⟨rfl, rfl⟩ := h
  by_cases hk : entry.1 = k
  · subst hk
    have hcall : KeyStep logic entry.1 (some l) _ _ := .onNotify l e entry.2
    have hstep := KeyRun.single hcall
    rw [hl] at hstep
    rw [hget]
    cases isComplete with
    | discard => simpa [kept] using hstep
    | retain => simpa [kept] using hstep
  · have hsame : KeyRun logic k s.logics[k]?
        [(.onNotify e entry.1 entry.2 emit isComplete : UnaryEvent K V W S)] s.logics[k]? :=
      .others _ (by simpa [UnaryEvent.key] using hk)
    cases isComplete with
    | discard => simpa [TreeMap.getElem?_erase, hk] using hsame
    | retain => simpa [TreeMap.getElem?_insert, hk] using hsame

theorem keyRun_run {ι : Type} {is : List ι}
    {step : UnaryKeys K L → ι → Option (UnaryKeys K L × List (UnaryEvent K V W S))} {k : K}
    (hstep : ∀ s i s₁ o, step s i = some (s₁, o) → KeyRun logic k s.logics[k]? o s₁.logics[k]?)
    (hr : Runs.run step s is = some (s₁, o)) : KeyRun logic k s.logics[k]? o s₁.logics[k]? :=
  Runs.run_history (P := fun _ t o => KeyRun logic k s.logics[k]? o t.logics[k]?)
    (Q := fun _ _ => True) (fun _ _ _ _ _ _ h _ hs => h.append (hstep _ _ _ _ hs))
    (.nil _) (Runs.along_true _ _) hr

/-- The end-of-input loop leaves in the map what `on_eof` left of each logic. -/
theorem run_eofStep_logics {entries : List (K × L)}
    (hr : Runs.run (eofStep (S := S) logic e) s entries = some (s₁, o))
    (hd : entries.Pairwise fun x y => x.1 ≠ y.1) (k : K) :
    (∀ l, (k, l) ∈ entries → s₁.logics[k]? = some (logic.onEof l).1) ∧
      (k ∉ entries.map Prod.fst → s₁.logics[k]? = s.logics[k]?) := by
  induction entries generalizing s o with
  | nil =>
    cases hr
    exact ⟨fun l hl => absurd hl List.not_mem_nil, fun _ => rfl⟩
  | cons entry entries ih =>
    obtain ⟨t, p₁, p₂, hs, hrest, -⟩ := Runs.exists_of_run_cons hr
    obtain ⟨hhead, htail⟩ := List.pairwise_cons.mp hd
    simp only [eofStep, Option.some.injEq, Prod.mk.injEq] at hs
    obtain ⟨rfl, -⟩ := hs
    obtain ⟨hmem, hnot⟩ := ih hrest htail
    refine ⟨fun l hl => ?_, fun hk => ?_⟩
    · rcases List.mem_cons.mp hl with rfl | hl
      · have hk : k ∉ entries.map Prod.fst := by
          intro hc
          obtain ⟨y, hy, rfl⟩ := List.mem_map.mp hc
          exact hhead y hy rfl
        rw [hnot hk]
        simp
      · exact hmem l hl
    · rw [List.map_cons, List.mem_cons, not_or] at hk
      rw [hnot hk.2]
      simp [TreeMap.getElem?_insert, Ne.symm hk.1]

theorem removeKeys_logics (keys : List K) (k : K) :
    (removeKeys s keys).logics[k]? = if k ∈ keys then none else s.logics[k]? := by
  induction keys generalizing s with
  | nil => simp [removeKeys]
  | cons k₀ keys ih =>
    show (removeKeys { s with
      logics := s.logics.erase k₀, schedCache := s.schedCache.erase k₀ } keys).logics[k]? = _
    rw [ih, TreeMap.getElem?_erase]
    by_cases hk : k ∈ keys
    · simp [hk]
    · by_cases hk₀ : k₀ = k
      · simp [hk₀]
      · simp [hk, hk₀, Ne.symm hk₀]

variable (logic e) in
/-- The call of `on_eof` for an entry. -/
def eofEvent (entry : K × L) : UnaryEvent K V W S :=
  .onEof e entry.1 (logic.onEof entry.2).2.1 (logic.onEof entry.2).2.2

omit [LinearOrder K] in
theorem discardedKey_eofEvent (entry : K × L) : discardedKey (eofEvent logic e entry) =
    if (logic.onEof entry.2).2.2 = .discard then some entry.1 else none := by
  unfold eofEvent
  cases (logic.onEof entry.2).2.2 with
  | discard => rfl
  | retain => rfl

variable (logic e) in
omit [LinearOrder K] in
/-- A key is discarded if its own logic says so. -/
theorem mem_discarded {entries : List (K × L)} {l : L}
    (hd : entries.Pairwise fun x y => x.1 ≠ y.1) (hl : (k, l) ∈ entries) :
    k ∈ (entries.map (eofEvent logic e)).filterMap discardedKey ↔
      (logic.onEof l).2.2 = .discard := by
  rw [List.filterMap_map, List.mem_filterMap]
  constructor
  · rintro ⟨entry, hentry, hk⟩
    rw [Function.comp, discardedKey_eofEvent] at hk
    obtain ⟨hdiscard, hk⟩ := Option.ite_none_right_eq_some.mp hk
    have hone : entry = (k, l) :=
      List.Pairwise.forall_of_forall_of_flip (R := fun x y => x.1 = y.1 → x = y)
        (fun _ _ _ => rfl) (hd.imp fun hne he => absurd he hne)
        (hd.imp fun hne he => absurd he.symm hne) hentry hl (Option.some.inj hk)
    rw [hone] at hdiscard
    exact hdiscard
  · intro hdiscard
    exact ⟨(k, l), hl, by rw [Function.comp, discardedKey_eofEvent, if_pos hdiscard]⟩

omit [LinearOrder K] in
/-- The calls of `on_eof` are a run of a key that has a logic: its own call is among them, once. -/
theorem keyRun_eofEvents {entries : List (K × L)} {l : L}
    (hd : entries.Pairwise fun x y => x.1 ≠ y.1) (hl : (k, l) ∈ entries) :
    KeyRun logic k (some l) (entries.map (eofEvent logic e)) (kept (logic.onEof l)) := by
  obtain ⟨pre, post, rfl⟩ := List.append_of_mem hl
  obtain ⟨-, hpost, hpre⟩ := List.pairwise_append.mp hd
  have hbefore : ∀ x ∈ pre.map (eofEvent logic e), x.key ≠ k := by
    intro x hx
    obtain ⟨entry, hentry, rfl⟩ := List.mem_map.mp hx
    exact hpre entry hentry (k, l) (by simp)
  have hafter : ∀ x ∈ post.map (eofEvent logic e), x.key ≠ k := by
    intro x hx
    obtain ⟨entry, hentry, rfl⟩ := List.mem_map.mp hx
    exact ((List.pairwise_cons.mp hpost).1 entry hentry).symm
  rw [List.map_append, List.map_cons]
  exact (KeyRun.others _ hbefore).append (.step (.onEof l e) (.others _ hafter))

theorem eofPhase_keyRun {eof : Bool} (h : eofPhase logic eof e s = some (s₁, o)) (k : K) :
    KeyRun logic k s.logics[k]? o s₁.logics[k]? ∧ (eof = true →
      s₁.logics[k]? = s.logics[k]?.bind fun l => kept (logic.onEof l)) := by
  cases eof with
  | false =>
    cases h
    exact ⟨.nil _, fun hc => by cases hc⟩
  | true =>
    obtain ⟨t, o', hr⟩ := run_eofStep logic e s s.logics.toList
    rw [eofPhase_true hr] at h
    cases h
    have hd : s.logics.toList.Pairwise fun x y => x.1 ≠ y.1 :=
      TreeMap.distinct_keys_toList.imp fun hne he => hne (by simp [he])
    obtain ⟨hmem, hnot⟩ := run_eofStep_logics hr hd k
    obtain rfl : o = s.logics.toList.map (eofEvent logic e) := run_eofStep_events hr
    rw [removeKeys_logics]
    cases hl : s.logics[k]? with
    | none =>
      have hk : k ∉ s.logics.toList.map Prod.fst := by
        rw [TreeMap.map_fst_toList_eq_keys, TreeMap.mem_keys, ← TreeMap.isSome_getElem?_iff_mem, hl]
        exact Bool.false_ne_true
      have hother : ∀ x ∈ s.logics.toList.map (eofEvent logic e), x.key ≠ k := by
        intro x hx he
        obtain ⟨entry, hentry, rfl⟩ := List.mem_map.mp hx
        exact hk (List.mem_map.mpr ⟨entry, hentry, he⟩)
      rw [hnot hk, hl, ite_self]
      exact ⟨.others none hother, fun _ => rfl⟩
    | some l =>
      have hentry : (k, l) ∈ s.logics.toList := TreeMap.mem_toList_iff_getElem?_eq_some.mpr hl
      have hkept : (if k ∈ (s.logics.toList.map (eofEvent logic e)).filterMap discardedKey then none
          else t.logics[k]?) = kept (logic.onEof l) := by
        have hiff := mem_discarded logic e hd hentry
        rw [hmem l hentry]
        rcases hcall : logic.onEof l with ⟨l', emit, isComplete⟩
        rw [hcall] at hiff
        cases isComplete with
        | discard => rw [if_pos (hiff.mpr rfl)]; rfl
        | retain => rw [if_neg fun hc => by cases hiff.mp hc]; rfl
      rw [hkept]
      exact ⟨keyRun_eofEvents hd hentry, fun _ => rfl⟩

/-! ### Epochs and activations -/

theorem callPhases_keyRun {eof : Bool} {items : List (K × V)}
    (h : callPhases logic now eof e items s = some (s₁, o)) (k : K) :
    KeyRun logic k s.logics[k]? o s₁.logics[k]? := by
  obtain ⟨t₁, o₁, t₂, o₂, t₃, o₃, h₁, h₂, h₃, rfl, rfl⟩ := callPhases_eq_some.mp h
  have hitems := keyRun_run (k := k) (fun _ _ _ _ hs => itemStep_keyRun hs k) h₁
  have hnotifies := keyRun_run (k := k) (fun _ _ _ _ hs => notifyStep_keyRun hs k) h₂
  exact (hitems.append hnotifies).append (eofPhase_keyRun h₃ k).1

theorem snapshots_keyRun (s : UnaryKeys K L) (k : K) :
    KeyRun logic k s.logics[k]? (snapshots logic e s) s.logics[k]? := by
  unfold snapshots
  induction s.awokenKeysBuffer.toList with
  | nil => exact .nil _
  | cons k₀ keys ih =>
    by_cases hk : k₀ = k
    · subst hk
      exact .step (.snap _ e) ih
    · exact .other hk ih

theorem loads_keyRun (loads : List (K × StateChange S)) (s : UnaryKeys K L) (k : K) :
    KeyRun logic k s.logics[k]? (loads.map fun l => (.load e l.1 l.2 : UnaryEvent K V W S))
      (loads.foldl (applyLoad logic now) s).logics[k]? := by
  induction loads generalizing s with
  | nil => exact .nil _
  | cons load loads ih =>
    have hrest := ih (applyLoad logic now s load)
    rw [applyLoad_key] at hrest
    by_cases hk : load.1 = k
    · rw [if_pos hk] at hrest
      subst hk
      exact .step (.load _ e now load.2) hrest
    · rw [if_neg hk] at hrest
      exact .other hk hrest

section Epoch

variable {f : Frontier} {s s₁ : UnaryState K V S L} {resumeEpoch : Nat}

theorem processEpoch_keyRun (h : processEpoch logic now f s e = some (s₁, o)) (k : K) :
    KeyRun logic k s.keys.logics[k]? o s₁.keys.logics[k]? := by
  obtain ⟨-, keys, called, hcall, ⟨-, rfl, rfl⟩ | ⟨-, rfl, rfl⟩⟩ := processEpoch_eq_some.mp h
  · exact (callPhases_keyRun hcall k).append ((snapshots_keyRun keys k).append
      (loads_keyRun _ { keys with awokenKeysBuffer := ∅ } k))
  · exact callPhases_keyRun hcall k

theorem activate_keyRun {a : Activation K V S}
    (h : activate logic resumeEpoch s a = some (s₁, o)) (k : K) :
    KeyRun logic k s.keys.logics[k]? o s₁.keys.logics[k]? := by
  rcases activate_cases h with ⟨-, rfl, rfl⟩ | ⟨c, t, -, hr, rfl⟩
  · exact .nil _
  · exact Runs.run_history
      (P := fun _ t o => KeyRun logic k (buffered s a).keys.logics[k]? o t.keys.logics[k]?)
      (Q := fun _ _ => True) (fun _ _ _ _ _ _ hk _ hs => hk.append (processEpoch_keyRun hs k))
      (.nil _) (Runs.along_true _ _) hr

/-- **The events of a run are the life of each key's logic.** -/
theorem run_keyRun {as : List (Activation K V S)}
    (h : Runs.run (activate logic resumeEpoch) init as = some (s₁, o)) (k : K) :
    KeyRun logic k none o s₁.keys.logics[k]? := by
  refine Runs.run_history
    (P := fun _ t o => KeyRun logic k none o t.keys.logics[k]?)
    (Q := fun _ _ => True) (fun _ _ _ _ _ _ hk _ hs => hk.append (activate_keyRun hs k))
    ?_ (Runs.along_true _ _) h
  have hnone : (init : UnaryState K V S L).keys.logics[k]? = none := by simp [init]
  rw [hnone]
  exact .nil _

end Epoch

/-! ### Every delivered item is given to a logic -/

/-- The number of epochs up to the last one that has a batch. -/
def epochBound {α : Type} (batches : List (Nat × List α)) : Nat :=
  batches.foldr (fun b n => max (b.1 + 1) n) 0

/-- What is in the batches, in the order of their epochs. -/
def inEpochOrder {α : Type} (batches : List (Nat × List α)) : List α :=
  (List.range (epochBound batches)).flatMap fun e => (Keyed.valuesOf e batches).flatten

/-- The items that a schedule delivers, in the order of the epochs. -/
def arrivals (as : List (Activation K V S)) : List (K × V) :=
  inEpochOrder (as.flatMap fun a => a.items)

/-- What was delivered has been given to logics or is buffered, and no epoch is gone back to. -/
structure Delivery (items : Nat → List (K × V)) (s : UnaryState K V S L)
    (events : List (UnaryEvent K V W S)) : Prop where
  items_eq : ∀ e, items e = givenIn e events ++ s.inbuf.getD e []
  sorted : events.Pairwise fun x y => x.epoch ≤ y.epoch
  epoch_le : ∀ c ∈ s.cap, ∀ x ∈ events, x.epoch ≤ c

theorem run_itemStep_given {items : List (K × V)}
    (h : Runs.run (itemStep logic now e) s items = some (s₁, o)) : given o = items := by
  refine Runs.run_history (P := fun items _ o => given o = items) (Q := fun _ _ => True)
    (fun items t o item t₁ o₁ hg _ hs => ?_) rfl (Runs.along_true _ _) h
  cases hs
  rw [given_append, hg]
  rfl

theorem run_notifyStep_given {entries : List (K × Int)}
    (h : Runs.run (notifyStep logic e) s entries = some (s₁, o)) : given o = [] := by
  refine given_eq_nil fun x hx => ?_
  obtain ⟨entry, -, t, t₁, o₁, hs, hx⟩ := Runs.exists_of_mem_run h hx
  obtain ⟨l, -, hs⟩ := Option.bind_eq_some_iff.mp hs
  cases hs
  rw [List.mem_singleton.mp hx]
  rfl

theorem eofPhase_given {eof : Bool} (h : eofPhase logic eof e s = some (s₁, o)) : given o = [] := by
  cases eof with
  | false =>
    cases h
    rfl
  | true =>
    obtain ⟨t, o', hr⟩ := run_eofStep logic e s s.logics.toList
    rw [eofPhase_true hr] at h
    cases h
    refine given_eq_nil fun x hx => ?_
    rw [run_eofStep_events hr] at hx
    obtain ⟨entry, -, rfl⟩ := List.mem_map.mp hx
    rfl

/-- An epoch gives its buffered items to their logics. -/
theorem processEpoch_given {f : Frontier} {s s₁ : UnaryState K V S L}
    (h : processEpoch logic now f s e = some (s₁, o)) : given o = s.inbuf.getD e [] := by
  obtain ⟨-, keys, called, hcall, hclose⟩ := processEpoch_eq_some.mp h
  obtain ⟨t₁, o₁, t₂, o₂, t₃, o₃, h₁, h₂, h₃, -, rfl⟩ := callPhases_eq_some.mp hcall
  have hcalled : given (o₁ ++ o₂ ++ o₃) = s.inbuf.getD e [] := by
    rw [given_append, given_append, run_itemStep_given h₁, run_notifyStep_given h₂,
      eofPhase_given h₃, List.append_nil, List.append_nil]
  rcases hclose with ⟨-, -, rfl⟩ | ⟨-, -, rfl⟩
  · rw [given_append, hcalled, given_eq_nil, List.append_nil]
    intro x hx
    rcases List.mem_append.mp hx with hx | hx
    · obtain ⟨k, -, rfl⟩ := mem_snapshots.mp hx
      rfl
    · obtain ⟨load, -, rfl⟩ := List.mem_map.mp hx
      rfl
  · exact hcalled

section Deliver

variable {f : Frontier} {s s₁ : UnaryState K V S L} {resumeEpoch : Nat}
  {items : Nat → List (K × V)} {events : List (UnaryEvent K V W S)}

theorem Delivery.epoch (h : Delivery items s events)
    (hp : processEpoch logic now f s e = some (s₁, o)) : Delivery items s₁ (events ++ o) := by
  have hepoch := processEpoch_epoch hp
  have hgiven := processEpoch_given hp
  obtain ⟨⟨c, hcap, hce⟩, keys, called, -, hclose⟩ := processEpoch_eq_some.mp hp
  have hstate : s₁.cap = some e ∧ s₁.inbuf = s.inbuf.erase e := by
    rcases hclose with ⟨-, rfl, -⟩ | ⟨-, rfl, -⟩
    · exact ⟨rfl, rfl⟩
    · exact ⟨rfl, rfl⟩
  have hold : ∀ x ∈ events, x.epoch ≤ e := fun x hx => (h.epoch_le c hcap x hx).trans hce
  refine ⟨fun e' => ?_, ?_, fun c' hc' x hx => ?_⟩
  · rw [h.items_eq e', givenIn_append, hstate.2, List.append_assoc]
    by_cases he : e = e'
    · subst he
      have hall : o.filter (fun x => x.epoch = e) = o :=
        List.filter_eq_self.mpr fun x hx => by simp [hepoch x hx]
      rw [givenIn, givenIn, hall, hgiven]
      simp
    · have hnone : o.filter (fun x => x.epoch = e') = [] :=
        List.filter_eq_nil_iff.mpr fun x hx => by simp [hepoch x hx, he]
      rw [givenIn, givenIn, hnone, getD_erase_of_ne he]
      rfl
  · refine List.pairwise_append.mpr ⟨h.sorted, ?_, fun x hx y hy => ?_⟩
    · exact List.pairwise_of_forall_mem_list fun x hx y hy => by rw [hepoch x hx, hepoch y hy]
    · rw [hepoch y hy]
      exact hold x hx
  · rw [hstate.1] at hc'
    obtain rfl : e = c' := Option.some.inj hc'
    rcases List.mem_append.mp hx with hx | hx
    · exact hold x hx
    · exact (hepoch x hx).le

/-- An activation gives some of what is delivered, and buffers the rest. -/
theorem Delivery.activation {as : List (Activation K V S)} {a : Activation K V S}
    {fi fl : Frontier} (h : Delivery (delivered as) s events) (hready : Ready (fi.both fl) s)
    (hfollows : Follows fi fl a) (ha : activate logic resumeEpoch s a = some (s₁, o)) :
    Delivery (delivered (as ++ [a])) s₁ (events ++ o) := by
  rcases activate_cases ha with ⟨hcap, rfl, rfl⟩ | ⟨c, t, hcap, hr, rfl⟩
  · -- the inputs have ended, and deliver nothing
    have hend : fi = none := by
      have hboth := hready.cap_eq_none.mp hcap
      refine Option.eq_none_iff_forall_not_mem.mpr fun t ht => ?_
      rw [Option.mem_def.mp ht] at hboth
      cases fl with
      | none => cases hboth
      | some u => cases hboth
    have hnone : a.items = [] := by
      refine List.eq_nil_iff_forall_not_mem.mpr fun b hb => ?_
      obtain ⟨t, ht, -⟩ := hfollows.items b hb
      rw [hend] at ht
      cases ht
    refine ⟨fun e => ?_, by simpa using h.sorted, by simpa using h.epoch_le⟩
    rw [delivered_append_singleton, hnone, List.append_nil, h.items_eq e]
    simp
  · have hbuf : Delivery (delivered (as ++ [a])) (buffered s a) events := by
      refine ⟨fun e => ?_, h.sorted, h.epoch_le⟩
      rw [delivered_append_singleton, h.items_eq e]
      simp [buffered, getD_extend]
    have hrun := Runs.run_history
      (P := fun _ t o => Delivery (delivered (as ++ [a])) t (events ++ o)) (Q := fun _ _ => True)
      (fun _ _ _ _ _ _ hd _ hs => by
        rw [← List.append_assoc]
        exact hd.epoch hs)
      (by simpa using hbuf) (Runs.along_true _ _) hr
    refine ⟨hrun.items_eq, hrun.sorted, fun c' hc' => hrun.epoch_le c' ?_⟩
    simp only [finished] at hc'
    split at hc'
    · cases hc'
    · exact hc'

variable (logic resumeEpoch) in
/-- **Every delivered item is given to a logic once**, or is still buffered. -/
theorem run_delivery {as : List (Activation K V S)} (has : Schedule (some 0) (some 0) as) :
    ∃ s events, Runs.run (activate logic resumeEpoch) init as = some (s, events) ∧
      Delivery (delivered as) s events ∧ ∃ f, Ready f s := by
  obtain ⟨s, events, hr, pre, hpre, hd, fi, fl, hready, -⟩ := Runs.run_total_from
    (activate logic resumeEpoch) (Q := fun _ _ => True)
    (P := fun events s rest => ∃ pre, as = pre ++ rest ∧ Delivery (delivered pre) s events ∧
      ∃ fi fl, Ready (fi.both fl) s ∧ Schedule fi fl rest)
    (fun events s a rest ⟨pre, hpre, hd, fi, fl, hready, ha, hrest⟩ _ => by
      obtain ⟨s₁, o, hact, hready₁⟩ := activate_ready logic resumeEpoch hready ha
      exact ⟨s₁, o, hact, pre ++ [a], by simp [hpre], hd.activation hready ha hact,
        a.itemsFrontier, a.loadsFrontier, hready₁, hrest⟩)
    ⟨[], rfl, ⟨fun e => by simp [delivered, givenIn, init], .nil, by simp⟩,
      some 0, some 0, ready_init, has⟩ (Runs.along_true _ _)
  rw [List.append_nil] at hpre
  subst hpre
  exact ⟨s, events, hr, hd, fi.both fl, hready⟩

/-- Once the inputs have ended, the operator has closed its outputs. -/
theorem cap_eq_none_of_ended {as : List (Activation K V S)}
    (h : Runs.run (activate logic resumeEpoch) init as = some (s, events))
    (hend : ∃ a ∈ as, a.frontier = none) : s.cap = none := by
  refine Runs.run_history (P := fun as s _ => (∃ a ∈ as, a.frontier = none) → s.cap = none)
    (Q := fun _ _ => True) (fun as s o a s₁ o₁ hs _ ha => ?_) (by simp) (Runs.along_true _ _) h hend
  rintro ⟨b, hb, hnone⟩
  rcases activate_cases ha with ⟨hcap, rfl, -⟩ | ⟨c, t, hcap, -, rfl⟩
  · exact hcap
  · rcases List.mem_append.mp hb with hb | hb
    · rw [hs ⟨b, hb, hnone⟩] at hcap
      cases hcap
    · rw [List.mem_singleton.mp hb] at hnone
      simp [finished, hnone, Frontier.isEof]

/-! ### Runs in which nothing is loaded -/

/-- Nothing is waiting to be loaded. -/
def NoLoads (s : UnaryState K V S L) : Prop := ∀ e, s.loadsInbuf.getD e [] = []

theorem NoLoads.buffered {a : Activation K V S} (h : NoLoads s) (ha : a.loads = []) :
    NoLoads (buffered s a) := by
  intro e
  rw [Unary.buffered, ha]
  exact h e

theorem NoLoads.epoch (h : NoLoads s) (hp : processEpoch logic now f s e = some (s₁, o)) :
    NoLoads s₁ := by
  obtain ⟨-, keys, called, -, hclose⟩ := processEpoch_eq_some.mp hp
  rcases hclose with ⟨-, rfl, -⟩ | ⟨-, rfl, -⟩
  · intro e'
    by_cases he : e = e'
    · subst he
      simp
    · show (s.loadsInbuf.erase e).getD e' [] = []
      rw [getD_erase_of_ne he]
      exact h e'
  · exact h

/-- The calls of an epoch are no loads. -/
theorem callPhases_isLoad {eof : Bool} {items : List (K × V)} {s s₁ : UnaryKeys K L}
    (h : callPhases logic now eof e items s = some (s₁, o)) : ∀ x ∈ o, x.isLoad = false := by
  obtain ⟨t₁, o₁, t₂, o₂, t₃, o₃, h₁, h₂, h₃, -, rfl⟩ := callPhases_eq_some.mp h
  intro x hx
  rw [List.append_assoc, List.mem_append, List.mem_append] at hx
  rcases hx with hx | hx | hx
  · obtain ⟨item, -, t, t', p, hs, hx⟩ := Runs.exists_of_mem_run h₁ hx
    cases hs
    rw [List.mem_singleton.mp hx]
    rfl
  · obtain ⟨entry, -, t, t', p, hs, hx⟩ := Runs.exists_of_mem_run h₂ hx
    obtain ⟨l, -, hs⟩ := Option.bind_eq_some_iff.mp hs
    cases hs
    rw [List.mem_singleton.mp hx]
    rfl
  · cases eof with
    | false =>
      cases h₃
      cases hx
    | true =>
      obtain ⟨t, p, hr⟩ := run_eofStep logic e t₂ t₂.logics.toList
      rw [eofPhase_true hr] at h₃
      cases h₃
      rw [run_eofStep_events hr] at hx
      obtain ⟨entry, -, rfl⟩ := List.mem_map.mp hx
      rfl

/-- An epoch loads nothing if nothing has arrived to be loaded. -/
theorem processEpoch_isLoad (hl : NoLoads s)
    (hp : processEpoch logic now f s e = some (s₁, o)) : ∀ x ∈ o, x.isLoad = false := by
  obtain ⟨-, keys, called, hcall, hclose⟩ := processEpoch_eq_some.mp hp
  rcases hclose with ⟨-, -, rfl⟩ | ⟨-, -, rfl⟩
  · rw [hl e]
    intro x hx
    simp only [List.map_nil, List.append_nil, List.mem_append, mem_snapshots] at hx
    rcases hx with hx | ⟨k, -, rfl⟩
    · exact callPhases_isLoad hcall x hx
    · rfl
  · exact callPhases_isLoad hcall

/-- Without loads there are no load events. -/
theorem NoLoads.activation {a : Activation K V S} (h : NoLoads s) (ha : a.loads = [])
    (hact : activate logic resumeEpoch s a = some (s₁, o)) :
    NoLoads s₁ ∧ ∀ x ∈ o, x.isLoad = false := by
  rcases activate_cases hact with ⟨-, rfl, rfl⟩ | ⟨c, t, -, hr, rfl⟩
  · exact ⟨h, fun x hx => absurd hx List.not_mem_nil⟩
  · exact Runs.run_history (P := fun _ t o => NoLoads t ∧ ∀ x ∈ o, x.isLoad = false)
      (Q := fun _ _ => True)
      (fun _ _ _ _ _ _ ht _ hp => by
        refine ⟨ht.1.epoch hp, fun x hx => ?_⟩
        rcases List.mem_append.mp hx with hx | hx
        · exact ht.2 x hx
        · exact processEpoch_isLoad ht.1 hp x hx)
      ⟨h.buffered ha, fun x hx => absurd hx List.not_mem_nil⟩ (Runs.along_true _ _) hr

/-- An epoch at the end of the inputs leaves no logic, if they are all discarded and none is
loaded. -/
theorem processEpoch_over (hdiscard : ∀ l, kept (logic.onEof l) = none)
    (hl : NoLoads s) (hp : processEpoch logic now f s e = some (s₁, o)) :
    s₁.cap ≠ none ∧ (f = none → ∀ k : K, s₁.keys.logics[k]? = none) := by
  obtain ⟨-, keys, called, hcall, hclose⟩ := processEpoch_eq_some.mp hp
  obtain ⟨t₁, o₁, t₂, o₂, t₃, o₃, -, -, h₃, rfl, -⟩ := callPhases_eq_some.mp hcall
  have hgone : f = none → ∀ k : K, (updateSched logic t₃).logics[k]? = none := by
    intro hf k
    have heof := (eofPhase_keyRun h₃ k).2 (by rw [hf]; rfl)
    rw [updateSched_logics, heof]
    cases t₂.logics[k]? with
    | none => rfl
    | some l => exact hdiscard l
  rcases hclose with ⟨-, rfl, -⟩ | ⟨-, rfl, -⟩
  · rw [hl e]
    exact ⟨Option.some_ne_none e, hgone⟩
  · exact ⟨Option.some_ne_none e, hgone⟩

theorem NoLoads.activation_over {a : Activation K V S}
    (hdiscard : ∀ l, kept (logic.onEof l) = none) (h : NoLoads s) (ha : a.loads = [])
    (hgone : s.cap = none → ∀ k : K, s.keys.logics[k]? = none)
    (hact : activate logic resumeEpoch s a = some (s₁, o)) :
    s₁.cap = none → ∀ k : K, s₁.keys.logics[k]? = none := by
  rcases activate_cases hact with ⟨-, rfl, -⟩ | ⟨c, t, hcap, hr, rfl⟩
  · exact hgone
  · have hepochs := Runs.run_history
      (P := fun es t _ => NoLoads t ∧ t.cap ≠ none ∧
        (es ≠ [] → a.frontier = none → ∀ k : K, t.keys.logics[k]? = none)) (Q := fun _ _ => True)
      (fun _ _ _ _ _ _ ht _ hp => by
        obtain ⟨hc, hgone⟩ := processEpoch_over hdiscard ht.1 hp
        exact ⟨ht.1.epoch hp, hc, fun _ => hgone⟩)
      ⟨h.buffered ha, by simp [Unary.buffered, hcap], fun hnil => absurd rfl hnil⟩
      (Runs.along_true _ _) hr
    intro hnone
    simp only [finished] at hnone
    split at hnone
    · rename_i hf
      have hf : a.frontier = none := Option.isNone_iff_eq_none.mp hf
      -- the last output epoch is one of those that were gone through
      refine hepochs.2.2 (List.ne_nil_of_mem (a := c) ?_) hf
      refine mem_processEpochs.mpr (.inl ⟨.inl rfl, ?_⟩)
      rw [hf]
      exact Frontier.isClosed_none
    · exact absurd hnone hepochs.2.1

variable {as : List (Activation K V S)} (hloads : ∀ a ∈ as, a.loads = [])
  (h : Runs.run (activate logic resumeEpoch) init as = some (s, events))

include hloads h

/-- Nothing is loaded in a run. -/
theorem isLoad_eq_false_of_run : ∀ x ∈ events, x.isLoad = false := by
  have hrun := Runs.run_history (P := fun _ s events => NoLoads s ∧ ∀ x ∈ events, x.isLoad = false)
    (Q := fun _ a => a.loads = [])
    (fun _ _ _ _ _ _ hs ha hact => by
      obtain ⟨hl, ho⟩ := hs.1.activation ha hact
      refine ⟨hl, fun x hx => ?_⟩
      rcases List.mem_append.mp hx with hx | hx
      · exact hs.2 x hx
      · exact ho x hx)
    ⟨fun e => by simp [init], fun x hx => absurd hx List.not_mem_nil⟩
    (Runs.along_of_mem hloads) h
  exact hrun.2

/-- A logic that is always discarded at the end of the input is gone when the inputs have ended. -/
theorem logics_eq_none_of_ended (hdiscard : ∀ l, kept (logic.onEof l) = none)
    (hend : ∃ a ∈ as, a.frontier = none) (k : K) : s.keys.logics[k]? = none := by
  have hrun := Runs.run_induct (P := fun s => NoLoads s ∧
    (s.cap = none → ∀ k : K, s.keys.logics[k]? = none)) (Q := fun _ a => a.loads = [])
    (fun s a s₁ o hs ha hact =>
      ⟨(hs.1.activation ha hact).1, hs.1.activation_over hdiscard ha hs.2 hact⟩)
    ⟨fun e => by simp [init], by simp [init]⟩ (Runs.along_of_mem hloads) h
  exact hrun.2 (cap_eq_none_of_ended h hend) k

omit hloads h

/-! ### All of the input is given to logics -/

omit [LinearOrder K] in
/-- Events in the order of their epochs are those of each epoch in turn. -/
theorem given_eq_flatMap (hs : events.Pairwise fun x y => x.epoch ≤ y.epoch) (n : Nat) :
    given (events.filter fun x => x.epoch < n) = (List.range n).flatMap fun e => givenIn e events := by
  induction n with
  | zero => simp [given]
  | succ n ih =>
    have hsplit : (events.filter fun x => x.epoch < n + 1) =
        (events.filter fun x => x.epoch < n) ++ events.filter fun x => x.epoch = n := by
      clear ih
      induction events with
      | nil => rfl
      | cons x xs ih =>
        obtain ⟨hx, hxs⟩ := List.pairwise_cons.mp hs
        have hlater : ¬ x.epoch < n → xs.filter (fun y => y.epoch < n) = [] := by
          intro hn
          refine List.filter_eq_nil_iff.mpr fun y hy => ?_
          have := hx y hy
          simp only [decide_eq_true_eq]
          omega
        simp only [List.filter_cons, decide_eq_true_eq, ih hxs]
        rcases Nat.lt_trichotomy x.epoch n with hlt | heq | hgt
        · rw [if_pos (Nat.lt_succ_of_lt hlt), if_pos hlt, if_neg hlt.ne, List.cons_append]
        · have hnot : ¬ x.epoch < n := by omega
          rw [if_pos (by omega), if_neg hnot, if_pos heq, hlater hnot]
          rfl
        · have hnot : ¬ x.epoch < n := by omega
          rw [if_neg (by omega), if_neg hnot, if_neg hgt.ne']
    rw [hsplit, given_append, ih, List.range_succ, List.flatMap_append]
    simp [givenIn]

/-- There is nothing in later epochs. -/
theorem valuesOf_eq_nil_of_epochBound {α : Type} {batches : List (Nat × List α)} {e : Nat}
    (h : epochBound batches ≤ e) : Keyed.valuesOf e batches = [] := by
  refine Keyed.valuesOf_eq_nil fun he => ?_
  obtain ⟨b, hb, rfl⟩ := List.mem_map.mp he
  clear he
  unfold epochBound at h
  induction batches with
  | nil => cases hb
  | cons b' bs ih =>
    rw [List.foldr_cons] at h
    rcases List.mem_cons.mp hb with rfl | hb
    · omega
    · exact ih hb (by omega)

theorem inEpochOrder_eq {α : Type} {batches : List (Nat × List α)} {n : Nat}
    (h : epochBound batches ≤ n) :
    inEpochOrder batches = (List.range n).flatMap fun e => (Keyed.valuesOf e batches).flatten := by
  obtain ⟨m, rfl⟩ := Nat.exists_eq_add_of_le h
  have hrest : ∀ e ∈ (List.range m).map (epochBound batches + ·),
      (Keyed.valuesOf e batches).flatten = [] := by
    intro e he
    obtain ⟨i, -, rfl⟩ := List.mem_map.mp he
    rw [valuesOf_eq_nil_of_epochBound (Nat.le_add_right _ i)]
    rfl
  rw [List.range_add, List.flatMap_append, List.flatMap_eq_nil_iff.mpr hrest, List.append_nil]
  rfl

/-- **At the end of the inputs, the items that have been given to logics are those that have been
delivered**, in the order of the epochs. -/
theorem given_eq_arrivals {as : List (Activation K V S)} (hd : Delivery (delivered as) s events)
    (hready : Ready f s) (hcap : s.cap = none) : given events = arrivals as := by
  have hempty : ∀ e, s.inbuf.getD e [] = [] := by
    intro e
    refine TreeMap.getD_eq_fallback fun he => ?_
    obtain ⟨t, ht, -⟩ := hready.inbuf e he
    rw [hready.cap_eq_none.mp hcap] at ht
    cases ht
  have hin : ∀ e, givenIn e events = delivered as e := by
    intro e
    rw [hd.items_eq e, hempty e, List.append_nil]
  obtain ⟨m, hm⟩ : ∃ m, ∀ x ∈ events, x.epoch < m := by
    clear hd hin
    induction events with
    | nil => exact ⟨0, fun x hx => absurd hx List.not_mem_nil⟩
    | cons x xs ih =>
      obtain ⟨m, hm⟩ := ih
      refine ⟨max m (x.epoch + 1), fun y hy => ?_⟩
      rcases List.mem_cons.mp hy with rfl | hy
      · omega
      · have := hm y hy
        omega
  let n := epochBound (as.flatMap fun a => a.items)
  have hall : events.filter (fun x => x.epoch < n + m) = events :=
    List.filter_eq_self.mpr fun x hx => by
      have := hm x hx
      simp only [decide_eq_true_eq]
      omega
  calc given events = (List.range (n + m)).flatMap fun e => givenIn e events := by
        rw [← given_eq_flatMap hd.sorted, hall]
    _ = (List.range (n + m)).flatMap (delivered as) := by simp only [hin]
    _ = arrivals as := (inEpochOrder_eq (Nat.le_add_right _ m)).symm

variable (logic resumeEpoch) in
/-- **A run without loads**, key by key: its events are the lives of the keys' logics, in which no
state is loaded, and when the inputs have ended every item has been given to its logic. -/
theorem run_lives {as : List (Activation K V S)} (has : Schedule (some 0) (some 0) as)
    (hloads : ∀ a ∈ as, a.loads = []) :
    ∃ s events, Runs.run (activate logic resumeEpoch) init as = some (s, events) ∧
      (∀ x ∈ events, x.isLoad = false) ∧ (∀ k, KeyRun logic k none events s.keys.logics[k]?) ∧
      (∀ e, delivered as e = givenIn e events ++ s.inbuf.getD e []) ∧
      ((∃ a ∈ as, a.frontier = none) → given events = arrivals as) := by
  obtain ⟨s, events, hr, hd, f, hready⟩ := run_delivery logic resumeEpoch has
  exact ⟨s, events, hr, isLoad_eq_false_of_run hloads hr, run_keyRun hr, hd.items_eq,
    fun hend => given_eq_arrivals hd hready (cap_eq_none_of_ended hr hend)⟩

end Deliver

end Unary
end Bytewax
