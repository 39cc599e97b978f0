import Bytewax.Timely.EpochRun

/-!
# Bytewax.Timely.Stamps — capabilities bound what is put out

What holds of every activation that does not panic, whatever arrives: outputs are of epochs that the
held capability admits, capabilities do not go back, and what is buffered is of an epoch that is
still held.
-/

namespace Bytewax

open Std (TreeMap TreeSet)

namespace EagerNotificator

variable {E D ω : Type} {eager close : Nat → E × D → Option ((E × D) × List ω)}
  {frontier : Frontier} {env env' : E} {n n' : EagerNotificator D} {o o' : List ω} {d : D}
  {cap : Nat}

/-- What an activation is made of: the closed epochs of the queue, and the frontier epoch if it is
in the queue. -/
theorem forEach_cases (h : forEach eager close frontier env n = some ((env', n'), o))
    (hn : n.capsState = some (cap, d)) :
    ∃ cap₁ env₁ d₁ o₁, Runs.run (closeEpoch eager close) (cap, env, d)
        (n.queue.filter fun e => frontier.IsClosed e).toList = some ((cap₁, env₁, d₁), o₁) ∧
      n'.queue = (n.queue.filter fun e => ¬ frontier.IsClosed e) ∧
      ((frontier = none ∧ n'.capsState = none ∧ env' = env₁ ∧ o = o₁) ∨
        ∃ f, frontier = some f ∧ cap₁ ≤ f ∧
          ((f ∉ n'.queue ∧ n'.capsState = some (f, d₁) ∧ env' = env₁ ∧ o = o₁) ∨
            (f ∈ n'.queue ∧ ∃ d₂ o₂, eager f (env₁, d₁) = some ((env', d₂), o₂) ∧
              n'.capsState = some (f, d₂) ∧ o = o₁ ++ o₂))) := by
  simp only [forEach, hn] at h
  obtain ⟨⟨⟨cap₁, env₁, d₁⟩, o₁⟩, hr, h⟩ := Option.bind_eq_some_iff.mp h
  refine ⟨cap₁, env₁, d₁, o₁, hr, ?_⟩
  cases frontier with
  | none =>
    cases h
    exact ⟨rfl, .inl ⟨rfl, rfl, rfl, rfl⟩⟩
  | some f =>
    obtain ⟨cap₂, hcap, h⟩ := Option.bind_eq_some_iff.mp h
    obtain ⟨hle, hcap⟩ := Option.ite_none_right_eq_some.mp hcap
    cases hcap
    split at h
    · next hmem =>
      obtain ⟨⟨⟨env₂, d₂⟩, o₂⟩, heager, h⟩ := Option.bind_eq_some_iff.mp h
      cases h
      exact ⟨rfl, .inr ⟨_, rfl, hle, .inr ⟨hmem, d₂, o₂, heager, rfl, rfl⟩⟩⟩
    · next hmem =>
      cases h
      exact ⟨rfl, .inr ⟨_, rfl, hle, .inl ⟨hmem, rfl, rfl, rfl⟩⟩⟩

/-- **Invariant rule**: what both logics preserve holds after an activation. -/
theorem forEach_induct {P : E → List ω → Prop}
    (heager : ∀ e env d env' d' o o', P env o → eager e (env, d) = some ((env', d'), o') →
      P env' (o ++ o'))
    (hclose : ∀ e env d env' d' o o', P env o → close e (env, d) = some ((env', d'), o') →
      P env' (o ++ o'))
    (h : forEach eager close frontier env n = some ((env', n'), o')) (hP : P env o) :
    P env' (o ++ o') := by
  cases hn : n.capsState with
  | none =>
    rw [forEach_of_none hn] at h
    cases h
    rwa [List.append_nil]
  | some p =>
    obtain ⟨cap, d⟩ := p
    have hloop : ∀ {epochs : List Nat} {cap cap₁ env env₁ d d₁ o o₁}, P env o →
        Runs.run (closeEpoch eager close) (cap, env, d) epochs = some ((cap₁, env₁, d₁), o₁) →
        P env₁ (o ++ o₁) := by
      intro epochs
      induction epochs with
      | nil =>
        intro cap cap₁ env env₁ d d₁ o o₁ hP hr
        cases hr
        rwa [List.append_nil]
      | cons e epochs ih =>
        intro cap cap₁ env env₁ d d₁ o o₁ hP hr
        obtain ⟨⟨cap₂, env₂, d₂⟩, o₂, o₃, hs, hrest, rfl⟩ := Runs.exists_of_run_cons hr
        obtain ⟨cap₃, -, hs⟩ := Option.bind_eq_some_iff.mp hs
        obtain ⟨⟨⟨env₄, d₄⟩, o₄⟩, h₄, hs⟩ := Option.bind_eq_some_iff.mp hs
        obtain ⟨⟨⟨env₅, d₅⟩, o₅⟩, h₅, hs⟩ := Option.bind_eq_some_iff.mp hs
        cases hs
        rw [← List.append_assoc, ← List.append_assoc]
        exact ih (hclose e _ _ _ _ _ _ (heager e _ _ _ _ _ _ hP h₄) h₅) hrest
    obtain ⟨cap₁, env₁, d₁, o₁, hr, -, hcases⟩ := forEach_cases h hn
    rcases hcases with ⟨-, -, rfl, rfl⟩ | ⟨f, -, -, ⟨-, -, rfl, rfl⟩ | ⟨-, d₂, o₂, h₂, -, rfl⟩⟩
    · exact hloop hP hr
    · exact hloop hP hr
    · rw [← List.append_assoc]
      exact heager f _ _ _ _ _ _ (hloop hP hr) h₂

end EagerNotificator

namespace EpochOp

variable {A B U D α : Type} {op : EpochOp A B U D (Nat × α)}

/-- What the logics put out for an epoch is of that epoch. -/
structure Stamped (op : EpochOp A B U D (Nat × α)) : Prop where
  use : ∀ {e d buf d' o}, op.use e d buf = some (d', o) → ∀ x ∈ o, x.1 = e
  close : ∀ {e d us d' o}, op.close e d us = some (d', o) → ∀ x ∈ o, x.1 = e

/-- The capability that the operator holds. -/
def held (s : EpochState B U D) : Frontier := s.ncater.capsState.map Prod.fst

/-- What is buffered is in the queue, which is of epochs that are held. -/
structure Queued (s : EpochState B U D) : Prop where
  queue : ∀ e ∈ s.ncater.queue, ∀ cap ∈ held s, cap ≤ e
  items : ∀ e : Nat, (s.bufs.itemsInbuf[e]?).isSome → e ∈ s.ncater.queue
  ended : held s = none → ∀ e : Nat, s.bufs.itemsInbuf[e]? = none

theorem Queued.start : Queued op.start where
  queue e he := by simp [EpochOp.start, EagerNotificator.new] at he
  items e he := by simp [EpochOp.start] at he
  ended h := by cases h

/-- The outputs are of epochs from one to the other, in order. -/
structure Between (cap : Nat) (o : List (Nat × α)) (cap' : Nat) : Prop where
  le : cap ≤ cap'
  mem : ∀ x ∈ o, cap ≤ x.1 ∧ x.1 ≤ cap'
  ordered : (o.map Prod.fst).Pairwise (· ≤ ·)

theorem Between.append {cap cap₁ cap₂ : Nat} {o o' : List (Nat × α)} (h : Between cap o cap₁)
    (h' : Between cap₁ o' cap₂) : Between cap (o ++ o') cap₂ where
  le := Nat.le_trans h.le h'.le
  mem x hx := by
    rcases List.mem_append.mp hx with hx | hx
    · exact ⟨(h.mem x hx).1, Nat.le_trans (h.mem x hx).2 h'.le⟩
    · exact ⟨Nat.le_trans h.le (h'.mem x hx).1, (h'.mem x hx).2⟩
  ordered := by
    rw [List.map_append]
    refine List.pairwise_append.mpr ⟨h.ordered, h'.ordered, fun x hx y hy => ?_⟩
    obtain ⟨x, hx', rfl⟩ := List.mem_map.mp hx
    obtain ⟨y, hy', rfl⟩ := List.mem_map.mp hy
    exact Nat.le_trans (h.mem x hx').2 (h'.mem y hy').1

/-- Outputs of one epoch. -/
theorem Between.of_forall {cap e : Nat} {o : List (Nat × α)} (hle : cap ≤ e)
    (h : ∀ x ∈ o, x.1 = e) : Between cap o e where
  le := hle
  mem x hx := by
    rw [h x hx]
    exact ⟨hle, Nat.le_refl e⟩
  ordered := by
    refine List.pairwise_map.mpr (List.Pairwise.imp_of_mem (fun hx hy _ => ?_)
      (List.pairwise_of_forall fun _ _ => trivial))
    rw [h _ hx, h _ hy]

theorem eagerLogic_itemsInbuf {e : Nat} {s s' : EpochBufs B U × D} {o : List (Nat × α)}
    (h : op.eagerLogic e s = some (s', o)) (e' : Nat) :
    s'.1.itemsInbuf[e']? = if e = e' then none else s.1.itemsInbuf[e']? := by
  unfold eagerLogic at h
  split at h
  · next hnone =>
    cases h
    split
    · next he => rw [← he, hnone]
    · rfl
  · obtain ⟨⟨d', o'⟩, -, h⟩ := Option.bind_eq_some_iff.mp h
    cases h
    show (s.1.itemsInbuf.erase e)[e']? = _
    rw [TreeMap.getElem?_erase]
    simp

theorem closeLogic_itemsInbuf {e : Nat} {s s' : EpochBufs B U × D} {o : List (Nat × α)}
    (h : op.closeLogic e s = some (s', o)) : s'.1.itemsInbuf = s.1.itemsInbuf := by
  obtain ⟨⟨d', o'⟩, -, h⟩ := Option.bind_eq_some_iff.mp h
  cases h
  rfl

theorem Stamped.eagerLogic (hop : op.Stamped) {e : Nat} {s s' : EpochBufs B U × D}
    {o : List (Nat × α)} (h : op.eagerLogic e s = some (s', o)) : ∀ x ∈ o, x.1 = e := by
  unfold EpochOp.eagerLogic at h
  split at h
  · cases h
    simp
  · obtain ⟨⟨d', o'⟩, huse, h⟩ := Option.bind_eq_some_iff.mp h
    cases h
    exact hop.use huse

theorem Stamped.closeLogic (hop : op.Stamped) {e : Nat} {s s' : EpochBufs B U × D}
    {o : List (Nat × α)} (h : op.closeLogic e s = some (s', o)) : ∀ x ∈ o, x.1 = e := by
  obtain ⟨⟨d', o'⟩, hclose, h⟩ := Option.bind_eq_some_iff.mp h
  cases h
  exact hop.close hclose

/-- **The loop over the closed epochs.** -/
theorem Stamped.run_closeEpoch (hop : op.Stamped) {epochs : List Nat} {cap cap' : Nat}
    {s s' : EpochBufs B U × D} {o : List (Nat × α)}
    (h : Runs.run (EagerNotificator.closeEpoch op.eagerLogic op.closeLogic) (cap, s) epochs =
      some ((cap', s'), o)) :
    Between cap o cap' ∧ (∀ e ∈ epochs, cap ≤ e) ∧
      ∀ e, s'.1.itemsInbuf[e]? = if e ∈ epochs then none else s.1.itemsInbuf[e]? := by
  induction epochs generalizing cap s o with
  | nil =>
    cases h
    exact ⟨.of_forall (Nat.le_refl _) (by simp), by simp, by simp⟩
  | cons e epochs ih =>
    obtain ⟨⟨cap₁, s₁⟩, o₁, o₂, hs, hr, rfl⟩ := Runs.exists_of_run_cons h
    obtain ⟨cap₂, hcap, hs⟩ := Option.bind_eq_some_iff.mp hs
    obtain ⟨hle, hcap⟩ := Option.ite_none_right_eq_some.mp hcap
    obtain ⟨⟨s₃, o₃⟩, heager, hs⟩ := Option.bind_eq_some_iff.mp hs
    obtain ⟨⟨s₄, o₄⟩, hclose, hs⟩ := Option.bind_eq_some_iff.mp hs
    cases hcap
    cases hs
    obtain ⟨hbetween, hcaps, hbufs⟩ := ih hr
    have hone : Between cap (o₃ ++ o₄) e := .of_forall hle fun x hx =>
      (List.mem_append.mp hx).elim (hop.eagerLogic heager x) (hop.closeLogic hclose x)
    refine ⟨hone.append hbetween, fun e' he' => ?_, fun e' => ?_⟩
    · rcases List.mem_cons.mp he' with rfl | he'
      · exact hle
      · exact Nat.le_trans hle (hcaps e' he')
    · rw [hbufs, closeLogic_itemsInbuf hclose, eagerLogic_itemsInbuf heager]
      by_cases hin : e' ∈ epochs
      · simp [hin]
      · by_cases he : e = e'
        · simp [he]
        · simp [hin, he, Ne.symm he]

/-! ### One activation -/

variable {s s' : EpochState B U D} {a : EpochActivation A U} {o : List (Nat × α)}

theorem receiveItems_spec {incoming : Nat × List A} (h : op.receiveItems s incoming = some s') :
    s.ncater.capsState.isSome ∧ s'.ncater.capsState = s.ncater.capsState ∧
      s'.bufs.itemsInbuf =
        s.bufs.itemsInbuf.insert incoming.1 (op.push s.bufs.itemsInbuf[incoming.1]? incoming.2) ∧
      s'.ncater.queue = s.ncater.queue.insert incoming.1 := by
  obtain ⟨ncater, hn, h⟩ := Option.bind_eq_some_iff.mp h
  obtain ⟨hopen, hn⟩ := Option.ite_none_right_eq_some.mp hn
  cases hn
  cases h
  exact ⟨hopen, rfl, rfl, rfl⟩

theorem receiveUpdates_spec {incoming : Nat × List U} (h : receiveUpdates s incoming = some s') :
    s'.ncater.capsState = s.ncater.capsState ∧ s'.bufs.itemsInbuf = s.bufs.itemsInbuf ∧
      s'.ncater.queue = s.ncater.queue.insert incoming.1 := by
  obtain ⟨ncater, hn, h⟩ := Option.bind_eq_some_iff.mp h
  obtain ⟨-, hn⟩ := Option.ite_none_right_eq_some.mp hn
  cases hn
  cases h
  exact ⟨rfl, rfl, rfl⟩

/-- What holds while messages arrive. -/
structure Arriving (s₀ s : EpochState B U D) : Prop where
  caps : s.ncater.capsState = s₀.ncater.capsState
  items : ∀ e : Nat, (s.bufs.itemsInbuf[e]?).isSome → e ∈ s.ncater.queue
  ended : s₀.ncater.capsState = none → s.bufs.itemsInbuf = s₀.bufs.itemsInbuf

theorem arriving {s₂ : EpochState B U D} {items : List (Nat × List A)}
    {updates : List (Nat × List U)} (hq : Queued s)
    (hitems : items.foldlM op.receiveItems s = some s')
    (hupdates : updates.foldlM receiveUpdates s' = some s₂) : Arriving s s₂ := by
  have hstart : Arriving s s := ⟨rfl, hq.items, fun _ => rfl⟩
  have hreceived : Arriving s s' := by
    refine Runs.foldlM_induct (P := Arriving s) (fun t incoming t' ht h => ?_) hstart hitems
    obtain ⟨hopen, hcaps, hbuf, hqueue⟩ := receiveItems_spec h
    refine ⟨hcaps.trans ht.caps, fun e he => ?_, fun hnone => ?_⟩
    · rw [hbuf, TreeMap.getElem?_insert] at he
      rw [hqueue, TreeSet.mem_insert, Std.LawfulEqCmp.compare_eq_iff_eq]
      split at he
      · next heq => exact .inl (Std.LawfulEqCmp.compare_eq_iff_eq.mp heq)
      · exact .inr (ht.items e he)
    · rw [ht.caps, hnone] at hopen
      cases hopen
  refine Runs.foldlM_induct (P := Arriving s) (fun t incoming t' ht h => ?_) hreceived hupdates
  obtain ⟨hcaps, hbuf, hqueue⟩ := receiveUpdates_spec h
  refine ⟨hcaps.trans ht.caps, fun e he => ?_, fun hnone => hbuf.trans (ht.ended hnone)⟩
  rw [hbuf] at he
  rw [hqueue]
  exact TreeSet.mem_insert.mpr (.inr (ht.items e he))

/-- **An activation that does not panic** puts out, in the order of epochs, what is of epochs
between the capability held before and the one held after. -/
theorem Stamped.activate (hop : op.Stamped) (hq : Queued s)
    (h : op.activate s a = some (s', o)) :
    Queued s' ∧ (held s).Le (held s') ∧ (∀ x ∈ o, (held s).Admits x.1) ∧
      (∀ x ∈ o, ∀ cap ∈ held s', x.1 ≤ cap) ∧ (o.map Prod.fst).Pairwise (· ≤ ·) := by
  obtain ⟨s₁, hitems, h⟩ := Option.bind_eq_some_iff.mp h
  obtain ⟨s₂, hupdates, h⟩ := Option.bind_eq_some_iff.mp h
  obtain ⟨⟨⟨bufs, ncater⟩, out⟩, hfor, h⟩ := Option.bind_eq_some_iff.mp h
  cases h
  have harr := arriving hq hitems hupdates
  cases hn : s.ncater.capsState with
  | none =>
    have hnone := harr.caps.trans hn
    rw [EagerNotificator.forEach_of_none hnone] at hfor
    cases hfor
    have hheld : held s = none := by rw [held, hn]; rfl
    have hheld' : held (⟨s₂.bufs, s₂.ncater⟩ : EpochState B U D) = none := by
      rw [held, hnone]; rfl
    refine ⟨⟨fun e _ cap hcap => ?_, harr.items, fun _ e => ?_⟩, fun t ht => ?_, by simp, by simp,
      .nil⟩
    · rw [hheld'] at hcap
      cases hcap
    · rw [harr.ended hn]
      exact hq.ended hheld e
    · rw [hheld'] at ht
      cases ht
  | some p =>
    obtain ⟨cap, d⟩ := p
    have hheld : held s = some cap := by rw [held, hn]; rfl
    obtain ⟨cap₁, bufs₁, d₁, o₁, hr, hqueue, hcases⟩ :=
      EagerNotificator.forEach_cases hfor (harr.caps.trans hn)
    obtain ⟨hbetween, hcaps, hbufs⟩ := hop.run_closeEpoch hr
    -- what is still buffered after the loop is of an open epoch
    have hopen : ∀ e : Nat, (bufs₁.itemsInbuf[e]?).isSome → e ∈ ncater.queue := by
      intro e he
      have hget := hbufs e
      rw [hget] at he
      split at he
      · cases he
      · next hnot =>
        rw [hqueue]
        refine EagerNotificator.mem_openEpochs.mpr ⟨harr.items e he, fun hc => hnot ?_⟩
        exact EagerNotificator.mem_closedEpochs.mpr ⟨harr.items e he, hc⟩
    rcases hcases with ⟨hf, hend, rfl, rfl⟩ | ⟨f, hf, hle, hcases⟩
    · have hheld' : held (⟨bufs, ncater⟩ : EpochState B U D) = none := by rw [held, hend]; rfl
      refine ⟨⟨fun e _ c hc => ?_, hopen, fun _ e => ?_⟩, fun t ht => ?_, fun x hx => ?_,
        fun x _ c hc => ?_, hbetween.ordered⟩
      · rw [hheld'] at hc
        cases hc
      · rw [← Option.not_isSome_iff_eq_none]
        intro he
        have hin := hopen e he
        rw [hqueue] at hin
        exact (EagerNotificator.mem_openEpochs.mp hin).2 (hf ▸ Frontier.isClosed_none)
      · rw [hheld'] at ht
        cases ht
      · exact ⟨cap, hheld, (hbetween.mem x hx).1⟩
      · rw [hheld'] at hc
        cases hc
    · -- the frontier epoch may be used up, too
      have hfrom : ∀ e ∈ ncater.queue, f ≤ e := by
        intro e he
        rw [hqueue] at he
        have hnot := (EagerNotificator.mem_openEpochs.mp he).2
        rwa [hf, Frontier.isClosed_some, Nat.not_lt] at hnot
      obtain ⟨hheld', hall, hout⟩ : held (⟨bufs, ncater⟩ : EpochState B U D) = some f ∧
          (∀ e : Nat, (bufs.itemsInbuf[e]?).isSome → e ∈ ncater.queue) ∧ Between cap o f := by
        rcases hcases with ⟨-, hend, rfl, rfl⟩ | ⟨-, d₂, o₂, heager, hend, rfl⟩
        · refine ⟨by rw [held, hend]; rfl, hopen, ?_⟩
          have hnone : Between cap₁ ([] : List (Nat × α)) f := .of_forall hle (by simp)
          have hall := hbetween.append hnone
          rwa [List.append_nil] at hall
        · refine ⟨by rw [held, hend]; rfl, fun e he => ?_,
            hbetween.append (.of_forall hle (hop.eagerLogic heager))⟩
          have hget := eagerLogic_itemsInbuf heager e
          rw [hget] at he
          split at he
          · cases he
          · exact hopen e he
      refine ⟨⟨fun e he c hc => ?_, hall, fun hnone => ?_⟩, fun t ht => ?_, fun x hx => ?_,
        fun x hx c hc => ?_, hout.ordered⟩
      · rw [hheld'] at hc
        cases hc
        exact hfrom e he
      · rw [hheld'] at hnone
        cases hnone
      · rw [hheld'] at ht
        cases ht
        exact ⟨cap, hheld, hout.le⟩
      · exact ⟨cap, hheld, (hout.mem x hx).1⟩
      · rw [hheld'] at hc
        cases hc
        exact (hout.mem x hx).2

/-- The eager logic of an operator that puts out nothing in an open epoch. -/
theorem eagerLogic_nil (huse : ∀ {e d buf d' o}, op.use e d buf = some (d', o) → o = [])
    {e : Nat} {t t' : EpochBufs B U × D} (h : op.eagerLogic e t = some (t', o)) : o = [] := by
  unfold eagerLogic at h
  split at h
  · cases h
    rfl
  · obtain ⟨⟨d', o'⟩, hs, h⟩ := Option.bind_eq_some_iff.mp h
    cases h
    exact huse hs

/-- An operator that puts out nothing in an open epoch puts out only what is of closed epochs. -/
theorem Stamped.closed (hop : op.Stamped)
    (huse : ∀ {e d buf d' o}, op.use e d buf = some (d', o) → o = [])
    (h : op.activate s a = some (s', o)) : ∀ x ∈ o, a.frontier.IsClosed x.1 := by
  obtain ⟨s₁, hitems, h⟩ := Option.bind_eq_some_iff.mp h
  obtain ⟨s₂, hupdates, h⟩ := Option.bind_eq_some_iff.mp h
  obtain ⟨⟨⟨bufs, ncater⟩, out⟩, hfor, h⟩ := Option.bind_eq_some_iff.mp h
  cases h
  cases hn : s₂.ncater.capsState with
  | none =>
    rw [EagerNotificator.forEach_of_none hn] at hfor
    cases hfor
    simp
  | some p =>
    obtain ⟨cap, d⟩ := p
    obtain ⟨cap₁, bufs₁, d₁, o₁, hr, -, hcases⟩ := EagerNotificator.forEach_cases hfor hn
    have hloop : ∀ x ∈ o₁, a.frontier.IsClosed x.1 := by
      intro x hx
      obtain ⟨e, he, t, t', o', hs, hx⟩ := Runs.exists_of_mem_run hr hx
      obtain ⟨cap₂, -, hs⟩ := Option.bind_eq_some_iff.mp hs
      obtain ⟨⟨t₁, o₃⟩, heager, hs⟩ := Option.bind_eq_some_iff.mp hs
      obtain ⟨⟨t₂, o₄⟩, hclose, hs⟩ := Option.bind_eq_some_iff.mp hs
      cases hs
      have hat : x.1 = e := (List.mem_append.mp hx).elim (hop.eagerLogic heager x)
        (hop.closeLogic hclose x)
      rw [hat]
      exact (EagerNotificator.mem_closedEpochs.mp he).2
    rcases hcases with ⟨-, -, -, rfl⟩ | ⟨f, -, -, ⟨-, -, -, rfl⟩ | ⟨-, d₂, o₂, heager, -, rfl⟩⟩
    · exact hloop
    · exact hloop
    · rw [eagerLogic_nil huse heager, List.append_nil]
      exact hloop

end EpochOp
end Bytewax
