import Bytewax.Operators.UnaryEvents

/-!
# Bytewax.Operators.UnaryKeyed — an epoch as one key sees it

The items and the loads of other keys do not matter to a key: what an epoch does to it is `feed`,
the key's own values given to its logic one after the other, and `loadAll`, the key's own loads.
-/

namespace Bytewax

open Std (TreeMap TreeSet)

/-- The values that the event sends downstream. -/
def UnaryEvent.emit {K V W S : Type} : UnaryEvent K V W S → List W
  | .onItem _ _ _ emit _ | .onNotify _ _ _ emit _ | .onEof _ _ emit _ => emit
  | .snap .. | .load .. => []

/-- The change that the event sends to recovery. -/
def UnaryEvent.change {K V W S : Type} : UnaryEvent K V W S → List (StateChange S)
  | .snap _ _ change => [change]
  | _ => []

namespace Unary

variable {K V W S L : Type}

section Feed

variable (logic : UnaryLogic V W S L) (now : Int)

/-- The logic that an `on_*` method leaves. -/
def kept : LogicReturn W L → Option L
  | (l, _, .retain) => some l
  | (_, _, .discard) => none

/-- What `on_item` returns for a value of a key. -/
def callItem (l : Option L) (value : V) : LogicReturn W L :=
  logic.onItem (l.getD (logic.builder now none)) now value

/-- The values of a key given to its logic: what is left of the logic, and the values emitted. -/
def feed : Option L → List V → Option L × List W
  | l, [] => (l, [])
  | l, v :: vs =>
    let r := callItem logic now l v
    let rest := feed (kept r) vs
    (rest.1, r.2.1 ++ rest.2)

/-- A load of a key. -/
def loadOne (_ : Option L) : StateChange S → Option L
  | .upsert state => some (logic.builder now (some state))
  | .discard => none

/-- The loads of a key. -/
def loadAll (l : Option L) (loads : List (StateChange S)) : Option L :=
  loads.foldl (loadOne logic now) l

end Feed

variable {logic : UnaryLogic V W S L} {now : Int} {e : Nat}

@[simp] theorem feed_nil (l : Option L) : feed logic now l [] = (l, []) := rfl

theorem feed_append (l : Option L) (vs ws : List V) :
    feed logic now l (vs ++ ws) = ((feed logic now (feed logic now l vs).1 ws).1,
      (feed logic now l vs).2 ++ (feed logic now (feed logic now l vs).1 ws).2) := by
  induction vs generalizing l with
  | nil => rfl
  | cons v vs ih =>
    rw [List.cons_append, feed, ih]
    simp [feed]

@[simp] theorem loadAll_nil (l : Option L) : loadAll logic now l [] = l := rfl

variable [LinearOrder K] {s s₁ : UnaryKeys K L} {o : List (UnaryEvent K V W S)}

/-- The values sent downstream in an epoch for a key. -/
def itemsOf (e : Nat) (k : K) (events : List (UnaryEvent K V W S)) : List W :=
  events.flatMap fun x => if x.epoch = e ∧ x.key = k then x.emit else []

/-- The changes sent to recovery in an epoch for a key. -/
def snapsOf (e : Nat) (k : K) (events : List (UnaryEvent K V W S)) : List (StateChange S) :=
  events.flatMap fun x => if x.epoch = e ∧ x.key = k then x.change else []

@[simp] theorem itemsOf_append (k : K) (o₁ o₂ : List (UnaryEvent K V W S)) :
    itemsOf e k (o₁ ++ o₂) = itemsOf e k o₁ ++ itemsOf e k o₂ :=
  List.flatMap_append

@[simp] theorem snapsOf_append (k : K) (o₁ o₂ : List (UnaryEvent K V W S)) :
    snapsOf e k (o₁ ++ o₂) = snapsOf e k o₁ ++ snapsOf e k o₂ :=
  List.flatMap_append

theorem itemsOf_eq_nil {k : K} (h : ∀ x ∈ o, x.epoch ≠ e) : itemsOf e k o = [] := by
  refine List.flatMap_eq_nil_iff.mpr fun x hx => ?_
  rw [if_neg fun hc => h x hx hc.1]

theorem snapsOf_eq_nil {k : K} (h : ∀ x ∈ o, x.epoch ≠ e) : snapsOf e k o = [] := by
  refine List.flatMap_eq_nil_iff.mpr fun x hx => ?_
  rw [if_neg fun hc => h x hx hc.1]

/-- An item is given to the logic of its key, and to no other. -/
theorem itemStep_key {item : K × V} (h : itemStep logic now e s item = some (s₁, o)) (k : K) :
    s₁.logics[k]? = (feed logic now s.logics[k]? (if item.1 = k then [item.2] else [])).1 ∧
      itemsOf e k o =
        (feed logic now s.logics[k]? (if item.1 = k then [item.2] else [])).2 := by
  have hget : s.logics.getD item.1 (logic.builder now none) =
      s.logics[item.1]?.getD (logic.builder now none) := TreeMap.getD_eq_getD_getElem?
  rcases hl : logic.onItem (s.logics.getD item.1 (logic.builder now none)) now item.2 with
    ⟨l, emit, isComplete⟩
  rw [itemStep, hl] at h
  simp only [Option.some.injEq, Prod.mk.injEq] at h
  obtain ⟨rfl, rfl⟩ := h
  rw [hget] at hl
  by_cases hk : item.1 = k
  · subst hk
    rw [if_pos rfl]
    cases isComplete with
    | discard => simp [feed, callItem, hl, kept, itemsOf, UnaryEvent.epoch, UnaryEvent.key,
        UnaryEvent.emit]
    | retain => simp [feed, callItem, hl, kept, itemsOf, UnaryEvent.epoch, UnaryEvent.key,
        UnaryEvent.emit]
  · rw [if_neg hk]
    have hitems : itemsOf e k [(.onItem e item.1 item.2 emit isComplete :
        UnaryEvent K V W S)] = [] := by
      simp [itemsOf, UnaryEvent.key, hk]
    refine ⟨?_, hitems⟩
    cases isComplete with
    | discard => simp [TreeMap.getElem?_erase, hk]
    | retain => simp [TreeMap.getElem?_insert, hk]

/-- **The items of an epoch, as a key sees them.** -/
theorem run_itemStep_key {items : List (K × V)}
    (h : Runs.run (itemStep logic now e) s items = some (s₁, o)) (k : K) :
    s₁.logics[k]? = (feed logic now s.logics[k]? (Keyed.valuesOf k items)).1 ∧
      itemsOf e k o = (feed logic now s.logics[k]? (Keyed.valuesOf k items)).2 := by
  refine Runs.run_history (P := fun items s₁ o =>
      s₁.logics[k]? = (feed logic now s.logics[k]? (Keyed.valuesOf k items)).1 ∧
        itemsOf e k o = (feed logic now s.logics[k]? (Keyed.valuesOf k items)).2)
    (Q := fun _ _ => True) ?_ ⟨rfl, rfl⟩ (Runs.along_true _ _) h
  rintro items s₁ o item s₂ o₁ ⟨hl, ho⟩ - hs
  obtain ⟨hl₁, ho₁⟩ := itemStep_key hs k
  have hone : Keyed.valuesOf k [item] = if item.1 = k then [item.2] else [] := by
    rw [Keyed.valuesOf_cons, Keyed.valuesOf_nil]
  rw [Keyed.valuesOf_append, hone, feed_append, itemsOf_append]
  rw [hl] at hl₁ ho₁
  exact ⟨hl₁, by rw [ho, ho₁]⟩

/-- A load is for its key, and for no other. -/
theorem applyLoad_key (load : K × StateChange S) (k : K) :
    (applyLoad logic now s load).logics[k]? =
      if load.1 = k then loadOne logic now s.logics[k]? load.2 else s.logics[k]? := by
  obtain ⟨k₀, change⟩ := load
  cases change with
  | upsert state =>
    show (s.logics.insert k₀ _)[k]? = _
    rw [TreeMap.getElem?_insert]
    simp [loadOne]
  | discard =>
    show (s.logics.erase k₀)[k]? = _
    rw [TreeMap.getElem?_erase]
    simp [loadOne]

/-- **The loads of an epoch, as a key sees them.** -/
theorem foldl_applyLoad_key (loads : List (K × StateChange S)) (k : K) :
    (loads.foldl (applyLoad logic now) s).logics[k]? =
      loadAll logic now s.logics[k]? (Keyed.valuesOf k loads) := by
  induction loads generalizing s with
  | nil => rfl
  | cons load loads ih =>
    rw [List.foldl_cons, ih, applyLoad_key, Keyed.valuesOf_cons]
    split
    · rfl
    · rfl

end Unary
end Bytewax
