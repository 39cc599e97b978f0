import Mathlib.Data.List.Induction
import Mathlib.Tactic.TypeStar

/-!
# Bytewax.Lib.Runs — runs of a step function that may fail

`run step s is` feeds the inputs `is` to `step : σ → ι → Option (σ × List ω)` one by one and
concatenates what the steps put out; a step that is `none` (a panic, say) makes the whole run
`none`.  `Along step Q s is` says that `Q` holds of every state the run stops at together with the
input it is about to take.  The induction rules carry an invariant through a run, from the front
(`run_induct`) or with the whole history of inputs and outputs at hand (`run_history`).
-/

namespace Runs

variable {σ ι ω : Type*}

/-- Feed a list of inputs to a step function, concatenating the outputs. -/
def run (step : σ → ι → Option (σ × List ω)) : σ → List ι → Option (σ × List ω)
  | s, [] => some (s, [])
  | s, i :: is =>
    match step s i with
    | none => none
    | some (s₁, o₁) =>
      match run step s₁ is with
      | none => none
      | some (s₂, o₂) => some (s₂, o₁ ++ o₂)

/-- `Q` holds of each state of the run and the input taken there. -/
def Along (step : σ → ι → Option (σ × List ω)) (Q : σ → ι → Prop) : σ → List ι → Prop
  | _, [] => True
  | s, i :: is => Q s i ∧ ∀ s₁ o₁, step s i = some (s₁, o₁) → Along step Q s₁ is

variable {step : σ → ι → Option (σ × List ω)} {Q : σ → ι → Prop}

/-- Whether `Q` holds along a run can be computed. -/
instance Along.decidable [∀ s i, Decidable (Q s i)] :
    (s : σ) → (is : List ι) → Decidable (Along step Q s is)
  | _, [] => isTrue trivial
  | s, i :: is =>
    match h : step s i with
    | none => decidable_of_iff (Q s i) ⟨fun hQ => ⟨hQ, fun s₁ o₁ hs => by simp [h] at hs⟩, And.left⟩
    | some (s₁, o₁) =>
      have := decidable s₁ is
      decidable_of_iff (Q s i ∧ Along step Q s₁ is)
        ⟨fun hQ => ⟨hQ.1, fun s₂ o₂ hs => by
          rw [h] at hs
          cases hs
          exact hQ.2⟩, fun hQ => ⟨hQ.1, hQ.2 s₁ o₁ h⟩⟩

/-! ### Where an element of a history stands -/

/-- An element of a history that went on is among the new ones or was there before. -/
theorem split_append {α : Type*} {l l' pre post : List α} {x : α}
    (h : l ++ l' = pre ++ x :: post) : (∃ pre', pre = l ++ pre' ∧ l' = pre' ++ x :: post) ∨
      ∃ post', post = post' ++ l' ∧ l = pre ++ x :: post' := by
  rcases List.append_eq_append_iff.mp h with ⟨pre', hpre, hl'⟩ | ⟨rest, hl, hpost⟩
  · exact .inl ⟨pre', hpre, hl'⟩
  · cases rest with
    | nil => exact .inl ⟨[], by rw [hl, List.append_nil, List.append_nil], hpost.symm⟩
    | cons y rest =>
      obtain ⟨rfl, rfl⟩ := List.cons.inj hpost
      exact .inr ⟨rest, rfl, hl⟩

/-- An element of a history that went on by one is the new one or was there before. -/
theorem split_concat {α : Type*} {l pre post : List α} {x y : α}
    (h : l ++ [y] = pre ++ x :: post) : (pre = l ∧ x = y ∧ post = []) ∨
      ∃ post', post = post' ++ [y] ∧ l = pre ++ x :: post' := by
  rcases split_append h with ⟨pre', hpre, hy⟩ | hold
  · cases pre' with
    | nil =>
      obtain ⟨rfl, rfl⟩ := List.cons.inj hy
      exact .inl ⟨by rw [hpre, List.append_nil], rfl, rfl⟩
    | cons z pre' => simp at hy
  · exact .inr hold

/-! ### Runs -/

@[simp] theorem run_nil (s : σ) : run step s [] = some (s, []) := rfl

/-- A step and then a run. -/
theorem run_cons {s s₁ s₂ : σ} {i : ι} {is : List ι} {o₁ o₂ : List ω}
    (hs : step s i = some (s₁, o₁)) (hr : run step s₁ is = some (s₂, o₂)) :
    run step s (i :: is) = some (s₂, o₁ ++ o₂) := by
  unfold run
  rw [hs]
  show (match run step s₁ is with
    | none => none
    | some (s₂, o₂) => some (s₂, o₁ ++ o₂)) = _
  rw [hr]

/-- A run that does not fail begins with a step that does not. -/
theorem exists_of_run_cons {s s₂ : σ} {i : ι} {is : List ι} {o : List ω}
    (h : run step s (i :: is) = some (s₂, o)) :
    ∃ s₁ o₁ o₂, step s i = some (s₁, o₁) ∧ run step s₁ is = some (s₂, o₂) ∧ o = o₁ ++ o₂ := by
  unfold run at h
  cases h₁ : step s i with
  | none =>
    rw [h₁] at h
    cases h
  | some p =>
    obtain ⟨s₁, o₁⟩ := p
    rw [h₁] at h
    replace h : (match run step s₁ is with
      | none => none
      | some (s₂, o₂) => some (s₂, o₁ ++ o₂)) = some (s₂, o) := h
    cases h₂ : run step s₁ is with
    | none =>
      rw [h₂] at h
      cases h
    | some q =>
      rw [h₂] at h
      cases h
      exact ⟨s₁, o₁, q.2, rfl, h₂, rfl⟩

theorem run_cons_eq_some {s s₂ : σ} {i : ι} {is : List ι} {o : List ω} :
    run step s (i :: is) = some (s₂, o) ↔
      ∃ s₁ o₁ o₂, step s i = some (s₁, o₁) ∧ run step s₁ is = some (s₂, o₂) ∧ o = o₁ ++ o₂ := by
  refine ⟨exists_of_run_cons, ?_⟩
  rintro ⟨s₁, o₁, o₂, hs, hr, rfl⟩
  exact run_cons hs hr

theorem run_singleton {s : σ} {i : ι} : run step s [i] = step s i := by
  simp only [run]
  cases step s i with
  | none => rfl
  | some p => simp

theorem run_append_of_eq_some {s s₁ s₂ : σ} {is js : List ι} {o₁ o₂ : List ω}
    (h₁ : run step s is = some (s₁, o₁)) (h₂ : run step s₁ js = some (s₂, o₂)) :
    run step s (is ++ js) = some (s₂, o₁ ++ o₂) := by
  induction is generalizing s o₁ with
  | nil =>
    cases h₁
    exact h₂
  | cons i is ih =>
    obtain ⟨t, p, q, ht, hq, rfl⟩ := exists_of_run_cons h₁
    rw [List.append_assoc]
    exact run_cons ht (ih hq)

theorem exists_of_run_append {s s₂ : σ} {is js : List ι} {o : List ω}
    (h : run step s (is ++ js) = some (s₂, o)) :
    ∃ s₁ o₁ o₂, run step s is = some (s₁, o₁) ∧ run step s₁ js = some (s₂, o₂) ∧
      o = o₁ ++ o₂ := by
  induction is generalizing s o with
  | nil => exact ⟨s, [], o, rfl, h, rfl⟩
  | cons i is ih =>
    obtain ⟨t, p, q, ht, hq, rfl⟩ := exists_of_run_cons h
    obtain ⟨s₁, o₁, o₂, h₁, h₂, rfl⟩ := ih hq
    exact ⟨s₁, p ++ o₁, o₂, run_cons ht h₁, h₂, (List.append_assoc _ _ _).symm⟩

/-- **Where a run fails**: at the first input whose step fails. -/
theorem run_eq_none {s : σ} {is : List ι} : run step s is = none ↔
    ∃ pre i post m o, is = pre ++ i :: post ∧ run step s pre = some (m, o) ∧ step m i = none := by
  constructor
  · intro h
    induction is generalizing s with
    | nil => cases h
    | cons i is ih =>
      cases hs : step s i with
      | none => exact ⟨[], i, is, s, [], rfl, rfl, hs⟩
      | some p =>
        have hrest : run step p.1 is = none := by
          rw [Option.eq_none_iff_forall_ne_some]
          intro q hq
          rw [run_cons hs hq] at h
          cases h
        obtain ⟨pre, j, post, m, o, rfl, hr, hj⟩ := ih hrest
        exact ⟨i :: pre, j, post, m, p.2 ++ o, rfl, run_cons hs hr, hj⟩
  · rintro ⟨pre, i, post, m, o, rfl, hr, hi⟩
    rw [Option.eq_none_iff_forall_ne_some]
    intro q hq
    obtain ⟨m', o₁, o₂, hr', hrest, -⟩ := exists_of_run_append hq
    rw [hr] at hr'
    cases hr'
    obtain ⟨s₁, o₃, o₄, hs, -⟩ := exists_of_run_cons hrest
    rw [hi] at hs
    cases hs

theorem along_append {s s₁ : σ} {is js : List ι} {o₁ : List ω} (h : Along step Q s (is ++ js))
    (hr : run step s is = some (s₁, o₁)) : Along step Q s₁ js := by
  induction is generalizing s o₁ with
  | nil =>
    simp only [run_nil, Option.some.injEq, Prod.mk.injEq] at hr
    exact hr.1 ▸ h
  | cons i is ih =>
    obtain ⟨t, p, q, ht, hq, -⟩ := exists_of_run_cons hr
    exact ih (h.2 t p ht) hq

theorem Along.of_append {s : σ} {is js : List ι} (h : Along step Q s (is ++ js)) :
    Along step Q s is := by
  induction is generalizing s with
  | nil => trivial
  | cons i is ih => exact ⟨h.1, fun s₁ o₁ hs => ih (h.2 s₁ o₁ hs)⟩

theorem Along.append {s : σ} {is js : List ι} (h₁ : Along step Q s is)
    (h₂ : ∀ s₁ o₁, run step s is = some (s₁, o₁) → Along step Q s₁ js) :
    Along step Q s (is ++ js) := by
  induction is generalizing s with
  | nil => exact h₂ s [] rfl
  | cons i is ih =>
    refine ⟨h₁.1, fun s₁ o₁ hs => ih (h₁.2 s₁ o₁ hs) fun s₂ o₂ hr => h₂ s₂ (o₁ ++ o₂) ?_⟩
    exact run_cons hs hr

theorem Along.and {R : σ → ι → Prop} {s : σ} {is : List ι} (hQ : Along step Q s is)
    (hR : Along step R s is) : Along step (fun s i => Q s i ∧ R s i) s is := by
  induction is generalizing s with
  | nil => trivial
  | cons i is ih => exact ⟨⟨hQ.1, hR.1⟩, fun s₁ o₁ hs => ih (hQ.2 s₁ o₁ hs) (hR.2 s₁ o₁ hs)⟩

theorem along_true (s : σ) (is : List ι) : Along step (fun _ _ => True) s is := by
  induction is generalizing s with
  | nil => trivial
  | cons i is ih => exact ⟨trivial, fun s₁ _ _ => ih s₁⟩

/-- Each input of a run that does not fail is taken at some state of it. -/
theorem Along.exists_of_mem {s s' : σ} {is : List ι} {o : List ω} (h : Along step Q s is)
    (hr : run step s is = some (s', o)) {i : ι} (hi : i ∈ is) :
    ∃ s₁ s₂ o₂, Q s₁ i ∧ step s₁ i = some (s₂, o₂) := by
  induction is generalizing s o with
  | nil => cases hi
  | cons j is ih =>
    obtain ⟨s₁, o₁, o₂, hs, hr', -⟩ := exists_of_run_cons hr
    rcases List.mem_cons.mp hi with rfl | hi
    · exact ⟨s, s₁, o₁, h.1, hs⟩
    · exact ih (h.2 s₁ o₁ hs) hr' hi

/-- Each output of a run is one of a step of it. -/
theorem exists_of_mem_run {s s' : σ} {is : List ι} {o : List ω} {x : ω}
    (hr : run step s is = some (s', o)) (hx : x ∈ o) :
    ∃ i ∈ is, ∃ s₁ s₂ o₂, step s₁ i = some (s₂, o₂) ∧ x ∈ o₂ := by
  induction is generalizing s o with
  | nil =>
    cases hr
    cases hx
  | cons i is ih =>
    obtain ⟨s₁, o₁, o₂, hs, hr', rfl⟩ := exists_of_run_cons hr
    rcases List.mem_append.mp hx with hx | hx
    · exact ⟨i, List.mem_cons_self, s, s₁, o₁, hs, hx⟩
    · obtain ⟨j, hj, h⟩ := ih hr' hx
      exact ⟨j, List.mem_cons_of_mem i hj, h⟩

/-- What an invariant gives at every state, it gives along the run. -/
theorem along_of_invariant {P : σ → Prop} {s : σ} {is : List ι}
    (hstep : ∀ s, ∀ i ∈ is, ∀ s₁ o₁, P s → step s i = some (s₁, o₁) → P s₁)
    (hQ : ∀ s, ∀ i ∈ is, P s → Q s i) (h0 : P s) : Along step Q s is := by
  induction is generalizing s with
  | nil => trivial
  | cons i is ih =>
    refine ⟨hQ s i List.mem_cons_self h0, fun s₁ o₁ hs => ?_⟩
    exact ih (fun s j hj => hstep s j (List.mem_cons_of_mem _ hj))
      (fun s j hj => hQ s j (List.mem_cons_of_mem _ hj))
      (hstep s i List.mem_cons_self s₁ o₁ h0 hs)

/-- What holds of all inputs holds along the run. -/
theorem along_of_mem {Q : ι → Prop} {s : σ} {is : List ι} (h : ∀ i ∈ is, Q i) :
    Along step (fun _ i => Q i) s is :=
  along_of_invariant (P := fun _ => True) (fun _ _ _ _ _ _ _ => trivial) (fun _ i hi _ => h i hi)
    trivial

/-- What holds of every step that does not fail, holds along a run that does not fail. -/
theorem along_of_run {s s' : σ} {is : List ι} {o : List ω}
    (hstep : ∀ s i s₁ o₁, step s i = some (s₁, o₁) → Q s i)
    (hr : run step s is = some (s', o)) : Along step Q s is := by
  induction is generalizing s o with
  | nil => trivial
  | cons i is ih =>
    obtain ⟨s₁, o₁, o₂, hs, hr', -⟩ := exists_of_run_cons hr
    refine ⟨hstep s i s₁ o₁ hs, fun t p ht => ?_⟩
    rw [hs] at ht
    obtain ⟨rfl, rfl⟩ := Prod.mk.inj (Option.some.inj ht)
    exact ih hr'

/-- **Invariant rule**: what every step allowed by `Q` preserves holds after a run. -/
theorem run_induct {P : σ → Prop} {s s' : σ} {is : List ι} {o : List ω}
    (hstep : ∀ s i s₁ o₁, P s → Q s i → step s i = some (s₁, o₁) → P s₁)
    (h0 : P s) (hQ : Along step Q s is) (hr : run step s is = some (s', o)) : P s' := by
  induction is generalizing s o with
  | nil =>
    simp only [run_nil, Option.some.injEq, Prod.mk.injEq] at hr
    exact hr.1 ▸ h0
  | cons i is ih =>
    obtain ⟨s₁, o₁, o₂, hs, hr', -⟩ := exists_of_run_cons hr
    exact ih (hstep s i s₁ o₁ h0 hQ.1 hs) (hQ.2 s₁ o₁ hs) hr'

/-- **Invariant rule with history**: the invariant may mention the inputs taken and the outputs
put out so far, and a step knows which part of the run led to it. -/
theorem run_prefixes {P : List ι → σ → List ω → Prop} {s₀ s' : σ} {is : List ι} {o : List ω}
    (hstep : ∀ pre i post s o s₁ o₁, is = pre ++ i :: post → run step s₀ pre = some (s, o) →
      P pre s o → step s i = some (s₁, o₁) → P (pre ++ [i]) s₁ (o ++ o₁))
    (h0 : P [] s₀ []) (hr : run step s₀ is = some (s', o)) : P is s' o := by
  induction is using List.reverseRecOn generalizing s' o with
  | nil =>
    simp only [run_nil, Option.some.injEq, Prod.mk.injEq] at hr
    obtain ⟨rfl, rfl⟩ := hr
    exact h0
  | append_singleton is i ih =>
    obtain ⟨s₁, o₁, o₂, hr₁, hr₂, rfl⟩ := exists_of_run_append hr
    rw [run_singleton] at hr₂
    have hP : P is s₁ o₁ := ih (fun pre j post s o s₂ o₃ he hpre hp hs =>
      hstep pre j (post ++ [i]) s o s₂ o₃ (by simp [he]) hpre hp hs) hr₁
    exact hstep is i [] s₁ o₁ s' o₂ (by simp) hr₁ hP hr₂

/-- The rule with history for runs that stay within `Q`. -/
theorem run_history {P : List ι → σ → List ω → Prop} {s₀ s' : σ} {is : List ι} {o : List ω}
    (hstep : ∀ is s o i s₁ o₁, P is s o → Q s i → step s i = some (s₁, o₁) →
      P (is ++ [i]) s₁ (o ++ o₁))
    (h0 : P [] s₀ []) (hQ : Along step Q s₀ is) (hr : run step s₀ is = some (s', o)) :
    P is s' o := by
  refine run_prefixes (fun pre i post s o s₁ o₁ he hpre hp hs => ?_) h0 hr
  rw [he] at hQ
  exact hstep pre s o i s₁ o₁ hp (along_append hQ hpre).1 hs

/-- **Trap rule**: if a step outside of `Q` leads into a trap that no step leaves, a run that ends
outside of the trap has stayed within `Q`. -/
theorem along_of_trap {P T : σ → Prop} {s s' : σ} {is : List ι} {o : List ω}
    (hstep : ∀ s i s₁ o₁, P s → step s i = some (s₁, o₁) → P s₁)
    (htrap : ∀ s i s₁ o₁, P s → T s → step s i = some (s₁, o₁) → T s₁)
    (hbad : ∀ s i s₁ o₁, P s → ¬ Q s i → step s i = some (s₁, o₁) → T s₁)
    (h0 : P s) (hr : run step s is = some (s', o)) (hend : ¬ T s') : Along step Q s is := by
  induction is generalizing s o with
  | nil => trivial
  | cons i is ih =>
    obtain ⟨s₁, o₁, o₂, hs, hr', -⟩ := exists_of_run_cons hr
    have h1 := hstep s i s₁ o₁ h0 hs
    have hfree : ∀ t, P t → T t → ∀ u, run step t is = some (s', u) → False := by
      intro t hP hT u hu
      refine hend (run_induct (P := fun x => P x ∧ T x) (Q := fun _ _ => True)
        (fun x i x₁ y hx _ hxs => ?_) ⟨hP, hT⟩ (along_true t is) hu).2
      exact ⟨hstep x i x₁ y hx.1 hxs, htrap x i x₁ y hx.1 hx.2 hxs⟩
    refine ⟨?_, fun t p ht => ?_⟩
    · by_contra hQ
      exact hfree s₁ h1 (hbad s i s₁ o₁ h0 hQ hs) o₂ hr'
    · rw [hs] at ht
      simp only [Option.some.injEq, Prod.mk.injEq] at ht
      obtain ⟨rfl, rfl⟩ := ht
      exact ih h1 hr'

/-- **Simulation rule**: a map of the states that commutes with the steps commutes with the runs. -/
theorem run_map {σ₁ σ₂ : Type*} {step₁ : σ₁ → ι → Option (σ₁ × List ω)}
    {step₂ : σ₂ → ι → Option (σ₂ × List ω)} {f : σ₁ → σ₂}
    (hstep : ∀ s i, step₂ (f s) i = (step₁ s i).map fun p => (f p.1, p.2)) (s : σ₁) (is : List ι) :
    run step₂ (f s) is = (run step₁ s is).map fun p => (f p.1, p.2) := by
  induction is generalizing s with
  | nil => rfl
  | cons i is ih =>
    cases hs : step₁ s i with
    | none => simp only [run, hstep, hs, Option.map_none]
    | some p =>
      simp only [run, hstep, hs, Option.map_some, ih]
      cases run step₁ p.1 is with
      | none => rfl
      | some q => rfl

/-! ### Observing a run -/

variable {τ : Type*} {g : σ → ι → List τ}

variable (step g) in
/-- What is seen of each state of the run and the input taken there. -/
def observe : σ → List ι → List τ
  | _, [] => []
  | s, i :: is => g s i ++ match step s i with
    | none => []
    | some (s₁, _) => observe s₁ is

theorem observe_cons {s s₁ : σ} {i : ι} {is : List ι} {o₁ : List ω}
    (hs : step s i = some (s₁, o₁)) :
    observe step g s (i :: is) = g s i ++ observe step g s₁ is := by
  rw [observe, hs]

section Observe

variable {P : List τ → σ → Prop} {C : List τ → Prop} {s s' : σ} {is : List ι} {o : List ω}
  {h : List τ}

/-- **Invariant rule for what is seen**: the invariant may mention what has been seen so far, and all
of it meets a condition that a prefix meets if the whole does. -/
theorem run_observe (hpre : ∀ h h', C (h ++ h') → C h)
    (hstep : ∀ h s i s₁ o₁, P h s → C (h ++ g s i) → step s i = some (s₁, o₁) → P (h ++ g s i) s₁)
    (h0 : P h s) (hC : C (h ++ observe step g s is)) (hr : run step s is = some (s', o)) :
    P (h ++ observe step g s is) s' := by
  induction is generalizing s h o with
  | nil =>
    cases hr
    rwa [observe, List.append_nil]
  | cons i is ih =>
    obtain ⟨s₁, o₁, o₂, hs, hr', -⟩ := exists_of_run_cons hr
    rw [observe_cons hs, ← List.append_assoc] at hC ⊢
    exact ih (hstep h s i s₁ o₁ h0 (hpre _ _ hC) hs) hC hr'

/-- What such an invariant gives at every state, it gives along the run. -/
theorem along_observe (hpre : ∀ h h', C (h ++ h') → C h)
    (hstep : ∀ h s i s₁ o₁, P h s → C (h ++ g s i) → step s i = some (s₁, o₁) → P (h ++ g s i) s₁)
    (hQ : ∀ h s i, P h s → C (h ++ g s i) → Q s i) (h0 : P h s)
    (hC : C (h ++ observe step g s is)) : Along step Q s is := by
  induction is generalizing s h with
  | nil => trivial
  | cons i is ih =>
    have hi : C (h ++ g s i) := by
      rw [observe, ← List.append_assoc] at hC
      exact hpre _ _ hC
    refine ⟨hQ h s i h0 hi, fun s₁ o₁ hs => ?_⟩
    rw [observe_cons hs, ← List.append_assoc] at hC
    exact ih (hstep h s i s₁ o₁ h0 hi hs) hC

end Observe

variable (step) in
/-- **Total rule**: steps that do not fail from an invariant, which may mention the outputs put out
so far and the inputs still to come, give runs that do not fail. -/
theorem run_total_from {P : List ω → σ → List ι → Prop} {s : σ} {is : List ι}
    (hstep : ∀ o s i is, P o s (i :: is) → Q s i →
      ∃ s₁ o₁, step s i = some (s₁, o₁) ∧ P (o ++ o₁) s₁ is)
    (h0 : P [] s is) (hQ : Along step Q s is) :
    ∃ s' o, run step s is = some (s', o) ∧ P o s' [] := by
  have key : ∀ (is : List ι) (s : σ) (o₀ : List ω), P o₀ s is → Along step Q s is →
      ∃ s' o, run step s is = some (s', o) ∧ P (o₀ ++ o) s' [] := by
    intro is
    induction is with
    | nil => exact fun s o₀ h _ => ⟨s, [], rfl, by rwa [List.append_nil]⟩
    | cons i is ih =>
      intro s o₀ h hQ
      obtain ⟨s₁, o₁, hs, h1⟩ := hstep o₀ s i is h hQ.1
      obtain ⟨s', o, hr, h'⟩ := ih s₁ (o₀ ++ o₁) h1 (hQ.2 s₁ o₁ hs)
      refine ⟨s', o₁ ++ o, run_cons hs hr, ?_⟩
      rwa [← List.append_assoc]
  exact key is s [] h0 hQ

variable (step) in
/-- The total rule for an invariant of the states. -/
theorem run_total {P : σ → Prop} {s : σ} (is : List ι)
    (hstep : ∀ s i, P s → Q s i → ∃ s₁ o₁, step s i = some (s₁, o₁) ∧ P s₁)
    (h0 : P s) (hQ : Along step Q s is) : ∃ s' o, run step s is = some (s', o) ∧ P s' :=
  run_total_from step (P := fun _ s _ => P s) (fun _ s i _ hs hi => hstep s i hs hi) h0 hQ

variable (step) in
/-- The total rule for an invariant of the states and the inputs still to come. -/
theorem run_total_rest {P : σ → List ι → Prop} {s : σ} {is : List ι}
    (hstep : ∀ s i is, P s (i :: is) → ∃ s₁ o₁, step s i = some (s₁, o₁) ∧ P s₁ is)
    (h0 : P s is) : ∃ s' o, run step s is = some (s', o) ∧ P s' [] :=
  run_total_from step (P := fun _ s is => P s is) (fun _ s i is hs _ => hstep s i is hs) h0
    (along_true s is)

/-- **Output rule**: if the outputs of a step are good exactly when `Q` holds of it, the outputs of
a run are good exactly when it stays within `Q`. -/
theorem run_good_iff_along {P : σ → List ι → Prop} {G : ω → Prop} {s : σ} {is : List ι}
    (hstep : ∀ s i is, P s (i :: is) →
      ∃ s₁ o₁, step s i = some (s₁, o₁) ∧ P s₁ is ∧ ((∀ x ∈ o₁, G x) ↔ Q s i))
    (h0 : P s is) :
    (∃ s' o, run step s is = some (s', o) ∧ ∀ x ∈ o, G x) ↔ Along step Q s is := by
  induction is generalizing s with
  | nil => exact ⟨fun _ => trivial, fun _ => ⟨s, [], rfl, by simp⟩⟩
  | cons i is ih =>
    obtain ⟨s₁, o₁, hs, h1, hgood⟩ := hstep s i is h0
    constructor
    · rintro ⟨s', o, hr, hall⟩
      obtain ⟨t, p, q, ht, hq, rfl⟩ := exists_of_run_cons hr
      obtain ⟨rfl, rfl⟩ : s₁ = t ∧ o₁ = p := by simpa [hs] using ht
      refine ⟨hgood.mp fun x hx => hall x (List.mem_append_left _ hx), fun t p ht => ?_⟩
      obtain ⟨rfl, rfl⟩ : s₁ = t ∧ o₁ = p := by simpa [hs] using ht
      exact (ih h1).mp ⟨s', q, hq, fun x hx => hall x (List.mem_append_right _ hx)⟩
    · rintro ⟨hQ, hrest⟩
      obtain ⟨s', o, hr, hall⟩ := (ih h1).mpr (hrest s₁ o₁ hs)
      refine ⟨s', o₁ ++ o, run_cons hs hr, fun x hx => ?_⟩
      exact (List.mem_append.mp hx).elim (hgood.mpr hQ x) (hall x)

/-- Two folds that may fail, in step with each other. -/
theorem foldlM_rel {σ₁ σ₂ ι : Type*} {R : σ₁ → σ₂ → Prop} {f : σ₁ → ι → Option σ₁}
    {g : σ₂ → ι → Option σ₂} {s₁ : σ₁} {s₂ : σ₂} {is : List ι} (hR : R s₁ s₂)
    (hstep : ∀ i ∈ is, ∀ s₁ s₂, R s₁ s₂ → Option.Rel R (f s₁ i) (g s₂ i)) :
    Option.Rel R (is.foldlM f s₁) (is.foldlM g s₂) := by
  induction is generalizing s₁ s₂ with
  | nil => exact .some hR
  | cons i is ih =>
    rw [List.foldlM_cons, List.foldlM_cons]
    have hi := hstep i List.mem_cons_self s₁ s₂ hR
    cases h₁ : f s₁ i with
    | none =>
      cases h₂ : g s₂ i with
      | none => exact .none
      | some t₂ => rw [h₁, h₂] at hi; cases hi
    | some t₁ =>
      cases h₂ : g s₂ i with
      | none => rw [h₁, h₂] at hi; cases hi
      | some t₂ =>
        rw [h₁, h₂] at hi
        cases hi with
        | some ht => exact ih ht fun j hj => hstep j (List.mem_cons_of_mem _ hj)

/-- What no step changes, a fold that may fail does not change. -/
theorem foldlM_frame {σ ι τ : Type*} {f : σ → ι → Option σ} (g : σ → τ)
    (hstep : ∀ s i s', f s i = some s' → g s' = g s) {s s' : σ} {is : List ι}
    (h : is.foldlM f s = some s') : g s' = g s := by
  induction is generalizing s with
  | nil =>
    cases h
    rfl
  | cons i is ih =>
    rw [List.foldlM_cons] at h
    obtain ⟨s₁, h₁, h⟩ := Option.bind_eq_some_iff.mp h
    rw [ih h, hstep s i s₁ h₁]

/-- What no step of a fold that may fail breaks holds after it. -/
theorem foldlM_induct {σ ι : Type*} {f : σ → ι → Option σ} {P : σ → Prop}
    (hstep : ∀ s i s', P s → f s i = some s' → P s') {s s' : σ} {is : List ι} (hs : P s)
    (h : is.foldlM f s = some s') : P s' := by
  induction is generalizing s with
  | nil =>
    cases h
    exact hs
  | cons i is ih =>
    rw [List.foldlM_cons] at h
    obtain ⟨s₁, h₁, h⟩ := Option.bind_eq_some_iff.mp h
    exact ih (hstep s i s₁ hs h₁) h

end Runs
