import Mathlib.Tactic.TypeStar

/-!
# Bytewax.Lib.Iter — iterators, and batches of their elements

An iterator is a function that pulls the next element from a state: it gives an element, stops, or
fails.  `batch` collects the elements in batches, as a generator that is over once a batch is empty
or an element could not be pulled.  Two states that are related by a bisimulation give the same
results from then on (`Bisim.pulls`), and so do the batches of their elements (`Bisim.batch`).
-/

namespace Iter

variable {σ α β ε : Type*}

/-- What it gives to pull the next element. -/
inductive Next (α ε : Type*)
  | item (x : α)
  | stop
  | error (e : ε)
  deriving DecidableEq, Repr

/-- The element that was pulled. -/
def Next.item? : Next α ε → Option α
  | .item x => some x
  | .stop => none
  | .error _ => none

theorem Next.ne_error {r : Next α ε} (h : r.item?.isSome = true) (e : ε) : r ≠ .error e := by
  rintro rfl
  cases h

/-- The results of the next calls. -/
def pulls (next : σ → Next α ε × σ) : Nat → σ → List (Next α ε)
  | 0, _ => []
  | n + 1, s => (next s).1 :: pulls next n (next s).2

/-- At most `n` elements. -/
def islice (next : σ → Next α ε × σ) : Nat → σ → Except ε (List α) × σ
  | 0, s => (.ok [], s)
  | n + 1, s =>
    match next s with
    | (.item x, s) => ((islice next n s).1.map (x :: ·), (islice next n s).2)
    | (.stop, s) => (.ok [], s)
    | (.error e, s) => (.error e, s)

/-- A generator of batches: what it pulls from, and whether it has returned or failed. -/
structure Batcher (σ : Type*) where
  it : σ
  finished : Bool
  deriving DecidableEq, Repr

/-- The next batch. -/
def batch (next : σ → Next α ε × σ) (size : Nat) (b : Batcher σ) : Next (List α) ε × Batcher σ :=
  if b.finished then
    (.stop, b)
  else
    match islice next size b.it with
    | (.ok xs, it) => if xs.length ≤ 0 then (.stop, ⟨it, true⟩) else (.item xs, ⟨it, false⟩)
    | (.error e, it) => (.error e, ⟨it, true⟩)

section Equations

variable {next : σ → Next α ε × σ} {s s₁ : σ} {n : Nat} {x : α} {e : ε}

theorem islice_item (h : next s = (.item x, s₁)) :
    islice next (n + 1) s = ((islice next n s₁).1.map (x :: ·), (islice next n s₁).2) := by
  rw [islice, h]

theorem islice_stop (h : next s = (.stop, s₁)) : islice next (n + 1) s = (.ok [], s₁) := by
  rw [islice, h]

theorem islice_error (h : next s = (.error e, s₁)) : islice next (n + 1) s = (.error e, s₁) := by
  rw [islice, h]

theorem batch_of_finished {b : Batcher σ} (h : b.finished = true) :
    batch next n b = (.stop, b) := by
  rw [batch, if_pos h]

theorem batch_nil {b : Batcher σ} (h : b.finished = false)
    (hs : islice next n b.it = (.ok [], s)) : batch next n b = (.stop, ⟨s, true⟩) := by
  simp [batch, h, hs]

theorem batch_cons {b : Batcher σ} {xs : List α} (h : b.finished = false)
    (hs : islice next n b.it = (.ok (x :: xs), s)) :
    batch next n b = (.item (x :: xs), ⟨s, false⟩) := by
  simp [batch, h, hs]

theorem batch_error {b : Batcher σ} (h : b.finished = false)
    (hs : islice next n b.it = (.error e, s)) : batch next n b = (.error e, ⟨s, true⟩) := by
  simp [batch, h, hs]

end Equations

/-! ### Invariants -/

section Invariant

variable {next : σ → Next α ε × σ} {I E : σ → Prop} {s : σ} {n : Nat}

theorem islice_invariant (h : ∀ s, I s → I (next s).2) (hs : I s) : I (islice next n s).2 := by
  induction n generalizing s with
  | zero => exact hs
  | succ n ih =>
    have hnext := h s hs
    rcases hs₁ : next s with ⟨x | _ | e, s₁⟩
    · rw [hs₁] at hnext
      rw [islice_item hs₁]
      exact ih hnext
    · rw [hs₁] at hnext
      rw [islice_stop hs₁]
      exact hnext
    · rw [hs₁] at hnext
      rw [islice_error hs₁]
      exact hnext

theorem batch_invariant (h : ∀ s, I s → I (next s).2) {b : Batcher σ} (hb : I b.it) :
    I (batch next n b).2.it := by
  have hslice := islice_invariant (n := n) h hb
  cases hfin : b.finished with
  | true =>
    rw [batch_of_finished hfin]
    exact hb
  | false =>
    rcases hs : islice next n b.it with ⟨e | ⟨_ | ⟨x, xs⟩⟩, s₁⟩
    · rw [hs] at hslice
      rw [batch_error hfin hs]
      exact hslice
    · rw [hs] at hslice
      rw [batch_nil hfin hs]
      exact hslice
    · rw [hs] at hslice
      rw [batch_cons hfin hs]
      exact hslice

/-- `E` holds of the states from which nothing can be pulled any more. -/
structure Exhausted (next : σ → Next α ε × σ) (E : σ → Prop) : Prop where
  stop : ∀ s, E s → (next s).1 = .stop
  stays : ∀ s, E s → E (next s).2

theorem Exhausted.islice (h : Exhausted next E) (hs : E s) :
    ∃ s₁, islice next n s = (.ok [], s₁) ∧ E s₁ := by
  cases n with
  | zero => exact ⟨s, rfl, hs⟩
  | succ n => exact ⟨(next s).2, islice_stop (Prod.ext (h.stop s hs) rfl), h.stays s hs⟩

/-- A generator that is over and has not failed has nothing more to pull from. -/
theorem finished_batch (hE : ∀ s, I s → (next s).1 = .stop → E (next s).2) {b : Batcher σ}
    (hb : I b.it) (hfinished : b.finished = true → E b.it) (hn : 0 < n)
    (hok : ∀ e, (batch next n b).1 ≠ .error e) (hover : (batch next n b).2.finished = true) :
    E (batch next n b).2.it := by
  cases hfin : b.finished with
  | true =>
    rw [batch_of_finished hfin]
    exact hfinished hfin
  | false =>
    rcases hs : islice next n b.it with ⟨e | ⟨_ | ⟨x, xs⟩⟩, s₁⟩
    · rw [batch_error hfin hs] at hok
      exact absurd rfl (hok e)
    · rw [batch_nil hfin hs]
      -- Only an iterator that stopped gives an empty batch.
      obtain ⟨n, rfl⟩ := Nat.exists_eq_add_of_le' hn
      rcases hnext : next b.it with ⟨x | _ | e, s₂⟩
      · rw [islice_item hnext] at hs
        rcases hrest : islice next n s₂ with ⟨e | xs, s₃⟩
        · simp [hrest, Except.map] at hs
        · simp [hrest, Except.map] at hs
      · rw [islice_stop hnext] at hs
        obtain rfl := (Prod.mk.inj hs).2
        have hstop := hE b.it hb
        rw [hnext] at hstop
        exact hstop rfl
      · rw [islice_error hnext] at hs
        cases hs
    · rw [batch_cons hfin hs] at hover
      cases hover

end Invariant

/-! ### Bisimulations -/

/-- Related states give the same results and are related from then on. -/
structure Bisim (next : σ → Next α ε × σ) (R : σ → σ → Prop) : Prop where
  result : ∀ s t, R s t → (next s).1 = (next t).1
  rest : ∀ s t, R s t → R (next s).2 (next t).2

/-- Two generators that are over or not both, over related states, or with nothing to pull from. -/
def BatchRel (R : σ → σ → Prop) (E : σ → Prop) (b c : Batcher σ) : Prop :=
  (R b.it c.it ∧ b.finished = c.finished) ∨ E b.it ∧ E c.it

section Bisim

variable {next : σ → Next α ε × σ} {R : σ → σ → Prop} {E : σ → Prop} {s t : σ} {n : Nat}

/-- **Related states give the same results.** -/
theorem Bisim.pulls (h : Bisim next R) (hR : R s t) : pulls next n s = pulls next n t := by
  induction n generalizing s t with
  | zero => rfl
  | succ n ih =>
    unfold Iter.pulls
    rw [h.result s t hR, ih (h.rest s t hR)]

theorem Bisim.islice (h : Bisim next R) (hR : R s t) :
    (islice next n s).1 = (islice next n t).1 ∧ R (islice next n s).2 (islice next n t).2 := by
  induction n generalizing s t with
  | zero => exact ⟨rfl, hR⟩
  | succ n ih =>
    have hresult := h.result s t hR
    have hrest := h.rest s t hR
    rcases hs : next s with ⟨x, s₁⟩
    rcases ht : next t with ⟨y, t₁⟩
    rw [hs, ht] at hresult hrest
    obtain rfl : x = y := hresult
    cases x with
    | item x =>
      rw [islice_item hs, islice_item ht]
      exact ⟨congrArg (Except.map (x :: ·)) (ih hrest).1, (ih hrest).2⟩
    | stop =>
      rw [islice_stop hs, islice_stop ht]
      exact ⟨rfl, hrest⟩
    | error e =>
      rw [islice_error hs, islice_error ht]
      exact ⟨rfl, hrest⟩

/-- A generator with nothing to pull from is over. -/
theorem Exhausted.batch (h : Exhausted next E) {b : Batcher σ} (hb : E b.it) :
    (batch next n b).1 = .stop ∧ E (batch next n b).2.it := by
  cases hfin : b.finished with
  | true =>
    rw [batch_of_finished hfin]
    exact ⟨rfl, hb⟩
  | false =>
    obtain ⟨s₁, hs, hs₁⟩ := h.islice (n := n) hb
    rw [batch_nil hfin hs]
    exact ⟨rfl, hs₁⟩

/-- **The batches of related states.** -/
theorem Bisim.batch (h : Bisim next R) (hE : Exhausted next E) :
    Bisim (batch next n) (BatchRel R E) := by
  have hpair : ∀ b c, BatchRel R E b c → (Iter.batch next n b).1 = (Iter.batch next n c).1 ∧
      BatchRel R E (Iter.batch next n b).2 (Iter.batch next n c).2 := by
    rintro b c (⟨hR, hfin⟩ | ⟨hb, hc⟩)
    · cases hb : b.finished with
      | true =>
        rw [batch_of_finished hb, batch_of_finished (hfin ▸ hb)]
        exact ⟨rfl, .inl ⟨hR, hfin⟩⟩
      | false =>
        have hc : c.finished = false := hfin ▸ hb
        obtain ⟨hresult, hrest⟩ := h.islice (n := n) hR
        rcases hs : Iter.islice next n b.it with ⟨r, s₁⟩
        rcases ht : Iter.islice next n c.it with ⟨r', t₁⟩
        rw [hs, ht] at hresult hrest
        obtain rfl : r = r' := hresult
        rcases r with e | ⟨_ | ⟨x, xs⟩⟩
        · rw [batch_error hb hs, batch_error hc ht]
          exact ⟨rfl, .inl ⟨hrest, rfl⟩⟩
        · rw [batch_nil hb hs, batch_nil hc ht]
          exact ⟨rfl, .inl ⟨hrest, rfl⟩⟩
        · rw [batch_cons hb hs, batch_cons hc ht]
          exact ⟨rfl, .inl ⟨hrest, rfl⟩⟩
    · obtain ⟨hb₁, hb₂⟩ := hE.batch (n := n) hb
      obtain ⟨hc₁, hc₂⟩ := hE.batch (n := n) hc
      exact ⟨hb₁.trans hc₁.symm, .inr ⟨hb₂, hc₂⟩⟩
  exact ⟨fun b c hbc => (hpair b c hbc).1, fun b c hbc => (hpair b c hbc).2⟩

end Bisim

end Iter
