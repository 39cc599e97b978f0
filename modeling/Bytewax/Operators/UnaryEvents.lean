import Bytewax.Operators.UnaryInv

/-!
# Bytewax.Operators.UnaryEvents — what an epoch sends and whom it wakes

Every call of a logic is one event, of the epoch that is being processed, and wakes its key; the
snapshots of a closed epoch are those of the awoken keys.
-/

namespace Bytewax

open Std (TreeMap TreeSet)

namespace UnaryEvent

variable {K V W S : Type}

/-- The epoch whose capability the event is sent under. -/
def epoch : UnaryEvent K V W S → Nat
  | .onItem epoch _ _ _ _ | .onNotify epoch _ _ _ _ | .onEof epoch _ _ _
  | .snap epoch _ _ | .load epoch _ _ => epoch

/-- The key of the event. -/
def key : UnaryEvent K V W S → K
  | .onItem _ key _ _ _ | .onNotify _ key _ _ _ | .onEof _ key _ _
  | .snap _ key _ | .load _ key _ => key

end UnaryEvent

namespace Unary

variable {K V W S L : Type} [LinearOrder K] {logic : UnaryLogic V W S L} {now : Int} {e : Nat}
  {s s₁ : UnaryKeys K L} {o : List (UnaryEvent K V W S)}

/-- A loop in which each turn is one event of the epoch and wakes the event's key. -/
def Wakes {ι : Type} (e : Nat)
    (step : UnaryKeys K L → ι → Option (UnaryKeys K L × List (UnaryEvent K V W S))) : Prop :=
  ∀ s i s₁ o₁, step s i = some (s₁, o₁) → ∃ x, o₁ = [x] ∧ x.epoch = e ∧
    s₁.awokenKeysBuffer = s.awokenKeysBuffer.insert x.key

/-- The state after calls `o` made in epoch `e`, as far as waking keys goes. -/
structure Woken (e : Nat) (s s₁ : UnaryKeys K L) (o : List (UnaryEvent K V W S)) : Prop where
  epoch : ∀ x ∈ o, x.epoch = e
  awoken : ∀ k, k ∈ s₁.awokenKeysBuffer ↔ k ∈ s.awokenKeysBuffer ∨ ∃ x ∈ o, x.key = k

theorem Woken.nil : Woken e s s ([] : List (UnaryEvent K V W S)) :=
  ⟨by simp, by simp⟩

theorem Woken.append {s₂ : UnaryKeys K L} {o₁ o₂ : List (UnaryEvent K V W S)}
    (h₁ : Woken e s s₁ o₁) (h₂ : Woken e s₁ s₂ o₂) : Woken e s s₂ (o₁ ++ o₂) := by
  refine ⟨fun x hx => (List.mem_append.mp hx).elim (h₁.epoch x) (h₂.epoch x), fun k => ?_⟩
  rw [h₂.awoken, h₁.awoken]
  simp only [List.mem_append, or_and_right, exists_or, or_assoc]

theorem Woken.of_awoken_eq {s₂ : UnaryKeys K L} (h : Woken e s s₁ o)
    (h₂ : s₂.awokenKeysBuffer = s₁.awokenKeysBuffer) : Woken e s s₂ o :=
  ⟨h.epoch, fun k => by rw [h₂, h.awoken]⟩

/-- A waking loop has an event for each turn. -/
theorem Wakes.run {ι : Type} {is : List ι}
    {step : UnaryKeys K L → ι → Option (UnaryKeys K L × List (UnaryEvent K V W S))}
    (h : Wakes e step) (hr : Runs.run step s is = some (s₁, o)) :
    Woken e s s₁ o ∧ o.length = is.length := by
  refine Runs.run_history (P := fun is s₁ o => Woken e s s₁ o ∧ o.length = is.length)
    (Q := fun _ _ => True) ?_ ⟨.nil, rfl⟩ (Runs.along_true _ _) hr
  rintro is s₂ o i s₃ o₁ ⟨hw, hlen⟩ - hs
  obtain ⟨x, rfl, hx, ha⟩ := h s₂ i s₃ o₁ hs
  have hstep : Woken e s₂ s₃ [x] := by
    refine ⟨by simpa using hx, fun k => ?_⟩
    rw [ha, TreeSet.mem_insert, Std.LawfulEqCmp.compare_eq_iff_eq]
    simp [or_comm]
  exact ⟨hw.append hstep, by simp [hlen]⟩

theorem wakes_itemStep : Wakes e (itemStep logic now e : UnaryKeys K L → K × V → _) := by
  intro s item s₁ o₁ h
  rcases hl : logic.onItem (s.logics.getD item.1 (logic.builder now none)) now item.2 with
    ⟨l, emit, isComplete⟩
  rw [itemStep, hl] at h
  simp only [Option.some.injEq, Prod.mk.injEq] at h
  obtain ⟨rfl, rfl⟩ := h
  refine ⟨_, rfl, rfl, ?_⟩
  cases isComplete with
  | discard => rfl
  | retain => rfl

theorem wakes_notifyStep : Wakes e (notifyStep logic e : UnaryKeys K L → K × Int → _) := by
  intro s entry s₁ o₁ h
  obtain ⟨l, -, h⟩ := Option.bind_eq_some_iff.mp h
  rcases hl : logic.onNotify l entry.2 with ⟨l', emit, isComplete⟩
  rw [hl] at h
  simp only [pure, Option.some.injEq, Prod.mk.injEq] at h
  obtain ⟨rfl, rfl⟩ := h
  refine ⟨_, rfl, rfl, ?_⟩
  cases isComplete with
  | discard => rfl
  | retain => rfl

theorem wakes_eofStep : Wakes e (eofStep logic e : UnaryKeys K L → K × L → _) := by
  intro s entry s₁ o₁ h
  rcases hl : logic.onEof entry.2 with ⟨l, emit, isComplete⟩
  rw [eofStep, hl] at h
  simp only [Option.some.injEq, Prod.mk.injEq] at h
  obtain ⟨rfl, rfl⟩ := h
  exact ⟨_, rfl, rfl, rfl⟩

@[simp] theorem removeKeys_awoken (keys : List K) :
    (removeKeys s keys).awokenKeysBuffer = s.awokenKeysBuffer := by
  induction keys generalizing s with
  | nil => rfl
  | cons k keys ih => exact ih

@[simp] theorem updateSched_awoken :
    (updateSched logic s).awokenKeysBuffer = s.awokenKeysBuffer := rfl

@[simp] theorem updateSched_logics : (updateSched logic s).logics = s.logics := rfl

@[simp] theorem applyLoad_awoken (load : K × StateChange S) :
    (applyLoad logic now s load).awokenKeysBuffer = s.awokenKeysBuffer := by
  obtain ⟨k, change⟩ := load
  cases change with
  | upsert state => rfl
  | discard => rfl

/-- The phases before the closing of an epoch, one by one. -/
theorem callPhases_eq_some {eof : Bool} {items : List (K × V)} :
    callPhases logic now eof e items s = some (s₁, o) ↔
      ∃ t₁ o₁ t₂ o₂ t₃ o₃, Runs.run (itemStep logic now e) s items = some (t₁, o₁) ∧
        Runs.run (notifyStep logic e) t₁ (notifyKeys now t₁) = some (t₂, o₂) ∧
        eofPhase logic eof e t₂ = some (t₃, o₃) ∧
        s₁ = updateSched logic t₃ ∧ o = o₁ ++ o₂ ++ o₃ := by
  constructor
  · intro h
    obtain ⟨⟨t₁, o₁⟩, h₁, h⟩ := Option.bind_eq_some_iff.mp h
    obtain ⟨⟨t₂, o₂⟩, h₂, h⟩ := Option.bind_eq_some_iff.mp h
    obtain ⟨⟨t₃, o₃⟩, h₃, h⟩ := Option.bind_eq_some_iff.mp h
    simp only [pure, Option.some.injEq, Prod.mk.injEq] at h
    exact ⟨t₁, o₁, t₂, o₂, t₃, o₃, h₁, h₂, h₃, h.1.symm, h.2.symm⟩
  · rintro ⟨t₁, o₁, t₂, o₂, t₃, o₃, h₁, h₂, h₃, rfl, rfl⟩
    simp [callPhases, h₁, h₂, h₃]

theorem eofPhase_true {t₁ : UnaryKeys K L}
    (h : Runs.run (eofStep logic e) s s.logics.toList = some (t₁, o)) :
    eofPhase logic true e s = some (removeKeys t₁ (o.filterMap discardedKey), o) := by
  simp [eofPhase, h]

variable (logic e) in
theorem run_eofStep (s : UnaryKeys K L) (entries : List (K × L)) :
    ∃ t₁ o, Runs.run (eofStep logic e) s entries = some (t₁, o) := by
  obtain ⟨t₁, o, h, -⟩ := Runs.run_total (eofStep logic e) entries
    (P := fun _ => True) (Q := fun _ _ => True) (fun s entry _ _ => ⟨_, _, rfl, trivial⟩) trivial
    (Runs.along_true s entries)
  exact ⟨t₁, o, h⟩

/-- Without logics, the end of the input calls none. -/
theorem eofPhase_of_isEmpty (h : s.logics.isEmpty = true) (eof : Bool) :
    eofPhase logic eof e s = some (s, []) := by
  cases eof with
  | false => rfl
  | true =>
    have hnil : s.logics.toList = [] := by
      rw [← List.length_eq_zero_iff, TreeMap.length_toList]
      simpa [TreeMap.isEmpty_eq_size_eq_zero] using h
    simp [eofPhase, hnil, removeKeys]

/-- The end-of-input phase calls every logic. -/
theorem eofPhase_woken {eof : Bool} (h : eofPhase logic eof e s = some (s₁, o)) :
    Woken e s s₁ o ∧ o.length = bif eof then s.logics.size else 0 := by
  cases eof with
  | false =>
    simp only [eofPhase, Bool.false_eq_true, if_false, Option.some.injEq, Prod.mk.injEq] at h
    obtain ⟨rfl, rfl⟩ := h
    exact ⟨.nil, rfl⟩
  | true =>
    obtain ⟨t₁, o₁, hr⟩ := run_eofStep logic e s s.logics.toList
    rw [eofPhase_true hr] at h
    simp only [Option.some.injEq, Prod.mk.injEq] at h
    obtain ⟨rfl, rfl⟩ := h
    obtain ⟨hw, hlen⟩ := wakes_eofStep.run hr
    exact ⟨hw.of_awoken_eq (removeKeys_awoken _), by simpa using hlen⟩

/-- The calls of an epoch are of that epoch, and it is their keys that wake up. -/
theorem callPhases_woken {eof : Bool} {items : List (K × V)}
    (h : callPhases logic now eof e items s = some (s₁, o)) : Woken e s s₁ o := by
  obtain ⟨t₁, o₁, t₂, o₂, t₃, o₃, h₁, h₂, h₃, rfl, rfl⟩ := callPhases_eq_some.mp h
  exact ((wakes_itemStep.run h₁).1.append (wakes_notifyStep.run h₂).1).append
    (eofPhase_woken h₃).1 |>.of_awoken_eq updateSched_awoken

/-- The loads of an epoch, one after the other. -/
theorem run_loadStep (loads : List (K × StateChange S)) :
    Runs.run (loadStep logic now e : UnaryKeys K L → _ →
        Option (UnaryKeys K L × List (UnaryEvent K V W S))) s loads =
      some (loads.foldl (applyLoad logic now) s, loads.map fun l => .load e l.1 l.2) := by
  induction loads generalizing s with
  | nil => rfl
  | cons load loads ih =>
    refine Runs.run_cons rfl ih

theorem closePhases_eq (loads : List (K × StateChange S)) :
    closePhases logic now e loads s =
      some (loads.foldl (applyLoad logic now) { s with awokenKeysBuffer := ∅ },
        snapshots logic e s ++ loads.map fun l => .load e l.1 l.2) := by
  simp [closePhases, run_loadStep]

theorem foldl_applyLoad_awoken (loads : List (K × StateChange S)) :
    (loads.foldl (applyLoad logic now) s).awokenKeysBuffer = s.awokenKeysBuffer := by
  induction loads generalizing s with
  | nil => rfl
  | cons load loads ih => rw [List.foldl_cons, ih, applyLoad_awoken]

theorem mem_snapshots {x : UnaryEvent K V W S} : x ∈ snapshots logic e s ↔
    ∃ k ∈ s.awokenKeysBuffer, x = .snap e k (changeOf logic s.logics[k]?) := by
  simp [snapshots, TreeSet.mem_toList, eq_comm]

theorem updateSched_of_awoken (ha : s.awokenKeysBuffer = ∅) : updateSched logic s = s := by
  obtain ⟨logics, schedCache, awoken⟩ := s
  subst ha
  have hnil : (∅ : TreeSet K).toList = [] := List.isEmpty_iff.mp (by rw [TreeSet.isEmpty_toList]; rfl)
  rw [updateSched, hnil]
  rfl

/-- **What one epoch does**: the calls, and once it is closed the snapshots and the loads. -/
theorem processEpoch_eq_some {f : Frontier} {s s₁ : UnaryState K V S L}
    {o : List (UnaryEvent K V W S)} :
    processEpoch logic now f s e = some (s₁, o) ↔
      (∃ c ∈ s.cap, c ≤ e) ∧ ∃ keys called,
        callPhases logic now f.isEof e (s.inbuf.getD e []) s.keys = some (keys, called) ∧
        ((f.IsClosed e ∧
          s₁ = { s with
            cap := some e
            keys := (s.loadsInbuf.getD e []).foldl (applyLoad logic now)
              { keys with awokenKeysBuffer := ∅ }
            inbuf := s.inbuf.erase e
            loadsInbuf := s.loadsInbuf.erase e } ∧
          o = called ++ (snapshots logic e keys ++
            (s.loadsInbuf.getD e []).map fun l => .load e l.1 l.2)) ∨
        (¬ f.IsClosed e ∧ s₁ = { s with cap := some e, keys, inbuf := s.inbuf.erase e } ∧
          o = called)) := by
  constructor
  · intro h
    obtain ⟨c, hcap, h⟩ := Option.bind_eq_some_iff.mp h
    split at h
    · exact absurd h (by simp)
    · rename_i hc
      obtain ⟨⟨keys, called⟩, hcall, h⟩ := Option.bind_eq_some_iff.mp h
      refine ⟨⟨c, hcap, Nat.not_lt.mp hc⟩, keys, called, hcall, ?_⟩
      simp only [closePhases_eq] at h
      split at h
      · rename_i he
        simp only [Option.bind_eq_bind, Option.bind_some, pure, Option.some.injEq,
          Prod.mk.injEq] at h
        exact .inl ⟨he, h.1.symm, h.2.symm⟩
      · rename_i he
        simp only [pure, Option.some.injEq, Prod.mk.injEq] at h
        exact .inr ⟨he, h.1.symm, h.2.symm⟩
  · rintro ⟨⟨c, hcap, hc⟩, keys, called, hcall, ⟨he, rfl, rfl⟩ | ⟨he, rfl, rfl⟩⟩
    · exact processEpoch_closed hcap hc hcall he (closePhases_eq _)
    · exact processEpoch_open hcap hc hcall he

/-- The events of an epoch are of that epoch. -/
theorem processEpoch_epoch {f : Frontier} {s s₁ : UnaryState K V S L}
    {o : List (UnaryEvent K V W S)} (h : processEpoch logic now f s e = some (s₁, o)) :
    ∀ x ∈ o, x.epoch = e := by
  obtain ⟨-, keys, called, hcall, ⟨-, -, rfl⟩ | ⟨-, -, rfl⟩⟩ := processEpoch_eq_some.mp h
  · intro x hx
    simp only [List.mem_append, List.mem_map, mem_snapshots] at hx
    rcases hx with hx | ⟨k, -, rfl⟩ | ⟨l, -, rfl⟩
    · exact (callPhases_woken hcall).epoch x hx
    · rfl
    · rfl
  · exact (callPhases_woken hcall).epoch

end Unary
end Bytewax
