import Bytewax.Operators.UnaryInv
import Bytewax.Timely.EpochOp

/-!
# Bytewax.Timely.EpochRun — epochs are run in order, however their messages arrive

What an operator has done after any activations is what it does in whole epochs, in order, with
all that arrives in them (`EpochOp.Trace`), and in the open epoch with the items so far.
-/

namespace Bytewax

open Std (TreeMap TreeSet)

namespace EpochOp

variable {A B U D ω : Type} {op : EpochOp A B U D ω} {Holds : List A → B → Prop}
  {as arr rest : List (EpochActivation A U)} {a : EpochActivation A U} {e b : Nat}

/-! ### Arrivals -/

@[simp] theorem itemsAt_append : itemsAt (arr ++ rest) e = itemsAt arr e ++ itemsAt rest e := by
  simp [itemsAt]

@[simp] theorem updatesAt_append :
    updatesAt (arr ++ rest) e = updatesAt arr e ++ updatesAt rest e := by
  simp [updatesAt]

theorem hasItems_append : HasItems (arr ++ rest) e ↔ HasItems arr e ∨ HasItems rest e := by
  simp only [HasItems, List.flatMap_append, List.map_append, List.mem_append]

theorem active_append : Active (arr ++ rest) e ↔ Active arr e ∨ Active rest e := by
  simp only [Active, HasItems, List.flatMap_append, List.map_append, List.mem_append]
  tauto

theorem itemsAt_of_not_active (h : ¬ Active as e) : itemsAt as e = [] := by
  have hnot : e ∉ (as.flatMap EpochActivation.items).map Prod.fst := fun hin => h (.inl hin)
  rw [itemsAt, Keyed.valuesOf_eq_nil hnot]
  rfl

theorem updatesAt_of_not_active (h : ¬ Active as e) : updatesAt as e = [] := by
  have hnot : e ∉ (as.flatMap EpochActivation.updates).map Prod.fst := fun hin => h (.inr hin)
  rw [updatesAt, Keyed.valuesOf_eq_nil hnot]
  rfl

theorem updatesBefore_succ : updatesBefore as (e + 1) = updatesBefore as e ++ updatesAt as e := by
  rw [updatesBefore, updatesBefore, List.range_succ, List.flatMap_append, List.flatMap_singleton]

/-- What the buffer of an epoch holds. -/
def Pending (Holds : List A → B → Prop) (buf : Option B) (xs : List A) : Prop :=
  match buf with
  | none => xs = []
  | some buf => Holds xs buf

theorem Pending.push {buf : Option B} {xs : List A} (h : Pending Holds buf xs)
    (hbuf : op.Buffers Holds) (ys : List A) : Holds (xs ++ ys) (op.push buf ys) := by
  cases buf with
  | none =>
    obtain rfl : xs = [] := h
    exact hbuf.push_none ys
  | some buf => exact hbuf.push_some ys h

/-- Batches of items arrive. -/
theorem foldlM_receiveItems (hbuf : op.Buffers Holds) {s : EpochState B U D}
    (hopen : s.ncater.capsState.isSome) (items : List (Nat × List A)) :
    ∃ s', items.foldlM op.receiveItems s = some s' ∧
      s'.bufs.updatesInbuf = s.bufs.updatesInbuf ∧ s'.ncater.capsState = s.ncater.capsState ∧
      (∀ e xs, Pending Holds s.bufs.itemsInbuf[e]? xs →
        Pending Holds s'.bufs.itemsInbuf[e]? (xs ++ (Keyed.valuesOf e items).flatten)) ∧
      (∀ e, e ∉ items.map Prod.fst → s'.bufs.itemsInbuf[e]? = s.bufs.itemsInbuf[e]?) ∧
      ∀ e, e ∈ s'.ncater.queue ↔ e ∈ s.ncater.queue ∨ e ∈ items.map Prod.fst := by
  induction items generalizing s with
  | nil => exact ⟨s, rfl, rfl, rfl, by simp, by simp, by simp⟩
  | cons m items ih =>
    obtain ⟨epoch, ys⟩ := m
    have hstep : op.receiveItems s (epoch, ys) = some
        ⟨{ s.bufs with itemsInbuf :=
            s.bufs.itemsInbuf.insert epoch (op.push s.bufs.itemsInbuf[epoch]? ys) },
          { s.ncater with queue := s.ncater.queue.insert epoch }⟩ := by
      simp [receiveItems, EagerNotificator.notifyAt, hopen]
    obtain ⟨s', hr, hupdates, hcaps, hpending, hsame, hqueue⟩ := ih (s := ⟨{ s.bufs with
      itemsInbuf := s.bufs.itemsInbuf.insert epoch (op.push s.bufs.itemsInbuf[epoch]? ys) },
      { s.ncater with queue := s.ncater.queue.insert epoch }⟩) hopen
    refine ⟨s', ?_, hupdates, hcaps, fun e xs hxs => ?_, fun e he => ?_, fun e => ?_⟩
    · rw [List.foldlM_cons, hstep]
      exact hr
    · by_cases he : epoch = e
      · subst he
        rw [Keyed.valuesOf_cons, if_pos rfl, List.flatten_cons, ← List.append_assoc]
        refine hpending epoch (xs ++ ys) ?_
        rw [TreeMap.getElem?_insert_self]
        exact hxs.push hbuf ys
      · rw [Keyed.valuesOf_cons, if_neg he]
        refine hpending e xs ?_
        rw [TreeMap.getElem?_insert, if_neg (by simpa using he)]
        exact hxs
    · rw [List.map_cons, List.mem_cons, not_or] at he
      rw [hsame e he.2, TreeMap.getElem?_insert, if_neg (by simpa using Ne.symm he.1)]
    · rw [hqueue, TreeSet.mem_insert, Std.LawfulEqCmp.compare_eq_iff_eq, List.map_cons,
        List.mem_cons]
      tauto

/-- Batches of updates arrive. -/
theorem foldlM_receiveUpdates {s : EpochState B U D} (hopen : s.ncater.capsState.isSome)
    (updates : List (Nat × List U)) :
    ∃ s', updates.foldlM receiveUpdates s = some s' ∧
      s'.bufs.itemsInbuf = s.bufs.itemsInbuf ∧ s'.ncater.capsState = s.ncater.capsState ∧
      (∀ e, s'.bufs.updatesInbuf.getD e [] =
        s.bufs.updatesInbuf.getD e [] ++ (Keyed.valuesOf e updates).flatten) ∧
      ∀ e, e ∈ s'.ncater.queue ↔ e ∈ s.ncater.queue ∨ e ∈ updates.map Prod.fst := by
  induction updates generalizing s with
  | nil => exact ⟨s, rfl, rfl, rfl, by simp, by simp⟩
  | cons m updates ih =>
    obtain ⟨epoch, ys⟩ := m
    have hstep : receiveUpdates s (epoch, ys) = some
        ⟨{ s.bufs with updatesInbuf := Unary.extend s.bufs.updatesInbuf [(epoch, ys)] },
          { s.ncater with queue := s.ncater.queue.insert epoch }⟩ := by
      simp [receiveUpdates, EagerNotificator.notifyAt, hopen]
    obtain ⟨s', hr, hitems, hcaps, hbuf, hqueue⟩ := ih (s := ⟨{ s.bufs with
      updatesInbuf := Unary.extend s.bufs.updatesInbuf [(epoch, ys)] },
      { s.ncater with queue := s.ncater.queue.insert epoch }⟩) hopen
    refine ⟨s', ?_, hitems, hcaps, fun e => ?_, fun e => ?_⟩
    · rw [List.foldlM_cons, hstep]
      exact hr
    · rw [hbuf, Unary.getD_extend, Keyed.valuesOf_cons, Keyed.valuesOf_cons, Keyed.valuesOf_nil]
      by_cases he : epoch = e
      · simp [he]
      · simp [he]
    · rw [hqueue, TreeSet.mem_insert, Std.LawfulEqCmp.compare_eq_iff_eq, List.map_cons,
        List.mem_cons]
      tauto

/-! ### Between epochs -/

/-- What holds when the activations `arr` of `as` have arrived, and the epochs before `b` are closed:
the items of epoch `b` are used up or buffered, and later messages are buffered. -/
structure Core (op : EpochOp A B U D ω) (Holds : List A → B → Prop)
    (as arr : List (EpochActivation A U)) (b : Nat) (s : EpochBufs B U × D) (o : List ω) : Prop where
  trace : ∃ d₀ o₀ xs o₁ ys, op.Trace Holds as b d₀ o₀ ∧ op.Uses Holds b d₀ xs s.2 o₁ ∧
    o = o₀ ++ o₁ ∧ Pending Holds s.1.itemsInbuf[b]? ys ∧ xs ++ ys = itemsAt arr b ∧
    (¬ Active arr b → s.2 = d₀ ∧ o₁ = [])
  items : ∀ e, b < e → Pending Holds s.1.itemsInbuf[e]? (itemsAt arr e)
  updates : ∀ e, b ≤ e → s.1.updatesInbuf.getD e [] = updatesAt arr e
  buffered : ∀ e, (s.1.itemsInbuf[e]?).isSome → HasItems arr e

/-- Everything of the epoch has arrived. -/
structure Complete (as arr : List (EpochActivation A U)) (e : Nat) : Prop where
  items : itemsAt arr e = itemsAt as e
  updates : updatesAt arr e = updatesAt as e
  active : Active as e → Active arr e

variable {s : EpochBufs B U × D} {o : List ω}

theorem Core.init (op : EpochOp A B U D ω) (Holds : List A → B → Prop)
    (as : List (EpochActivation A U)) : Core op Holds as [] 0 (⟨∅, ∅⟩, op.init) [] where
  trace := ⟨op.init, [], [], [], [], .start, .nil, rfl, rfl, rfl, fun _ => ⟨rfl, rfl⟩⟩
  items e _ := rfl
  updates e _ := by simp [updatesAt]
  buffered e he := by simp at he

/-- An epoch without messages is over. -/
theorem Core.skip (h : Core op Holds as arr b s o) (hidle : ¬ Active arr b)
    (hactive : ¬ Active as b) : Core op Holds as arr (b + 1) s o := by
  obtain ⟨d₀, o₀, xs, o₁, ys, htrace, -, rfl, -, -, hnone⟩ := h.trace
  obtain ⟨hd, rfl⟩ := hnone hidle
  rw [List.append_nil]
  refine ⟨⟨s.2, o₀, [], [], itemsAt arr (b + 1), ?_, .nil, (List.append_nil _).symm,
    h.items (b + 1) (Nat.lt_succ_self b), rfl, fun _ => ⟨rfl, rfl⟩⟩, fun e he => ?_, fun e he => ?_,
    h.buffered⟩
  · rw [hd]
    exact htrace.idle hactive
  · exact h.items e (Nat.lt_of_succ_lt he)
  · exact h.updates e (Nat.le_of_succ_le he)

theorem Core.advance {b' : Nat} (h : Core op Holds as arr b s o) (hb : b ≤ b')
    (hidle : ∀ e, b ≤ e → e < b' → ¬ Active arr e ∧ ¬ Active as e) :
    Core op Holds as arr b' s o := by
  induction b', hb using Nat.le_induction with
  | base => exact h
  | succ b' hb ih =>
    have hcore := ih fun e he hlt => hidle e he (Nat.lt_succ_of_lt hlt)
    obtain ⟨hnot, hnot'⟩ := hidle b' hb (Nat.lt_succ_self b')
    exact hcore.skip hnot hnot'

/-- **The eager logic** uses up what is buffered. -/
theorem Core.eager (h : Core op Holds as arr b s o) (htotal : op.Total Holds as)
    (hactive : Active arr b) (hpre : itemsAt arr b <+: itemsAt as b)
    (hitems : HasItems arr b → HasItems as b) :
    ∃ s' o', op.eagerLogic b s = some (s', o') ∧ Core op Holds as arr b s' (o ++ o') ∧
      s'.1.itemsInbuf[b]? = none := by
  obtain ⟨d₀, o₀, xs, o₁, ys, htrace, huses, rfl, hpending, hxs, -⟩ := h.trace
  cases hbuf : s.1.itemsInbuf[b]? with
  | none =>
    refine ⟨s, [], by simp [eagerLogic, hbuf], ?_, hbuf⟩
    rw [List.append_nil]
    exact h
  | some buf =>
    have hholds : Holds ys buf := by
      rw [hbuf] at hpending
      exact hpending
    obtain ⟨⟨d', o'⟩, huse⟩ := Option.isSome_iff_exists.mp
      (htotal.use htrace huses (hitems (h.buffered b (by rw [hbuf]; rfl))) (hxs ▸ hpre) hholds)
    refine ⟨({ s.1 with itemsInbuf := s.1.itemsInbuf.erase b }, d'), o', ?_, ?_, ?_⟩
    · simp [eagerLogic, hbuf, huse]
    · refine ⟨⟨d₀, o₀, xs ++ ys, o₁ ++ o', [], htrace, huses.use hholds huse,
        List.append_assoc _ _ _, ?_, by rw [List.append_nil, hxs], fun hnot =>
          absurd hactive hnot⟩, fun e he => ?_, h.updates, fun e he => h.buffered e ?_⟩
      · simp [Pending]
      · have hne : ¬ b = e := Nat.ne_of_lt he
        have hsame : (s.1.itemsInbuf.erase b)[e]? = s.1.itemsInbuf[e]? := by
          rw [TreeMap.getElem?_erase, if_neg (by simpa using hne)]
        rw [hsame]
        exact h.items e he
      · replace he : ((s.1.itemsInbuf.erase b)[e]?).isSome := he
        rw [TreeMap.getElem?_erase] at he
        split at he
        · cases he
        · exact he
    · simp

/-- **The close logic** ends an epoch whose items are used up. -/
theorem Core.close (h : Core op Holds as arr b s o) (htotal : op.Total Holds as)
    (hcomplete : Complete as arr b) (hactive : Active as b) (hempty : s.1.itemsInbuf[b]? = none) :
    ∃ s' o', op.closeLogic b s = some (s', o') ∧ Core op Holds as arr (b + 1) s' (o ++ o') := by
  obtain ⟨d₀, o₀, xs, o₁, ys, htrace, huses, rfl, hpending, hitems, -⟩ := h.trace
  rw [hempty] at hpending
  obtain rfl : ys = [] := hpending
  rw [List.append_nil, hcomplete.items] at hitems
  subst hitems
  have hupdates : s.1.updatesInbuf.getD b [] = updatesAt as b :=
    (h.updates b (Nat.le_refl b)).trans hcomplete.updates
  obtain ⟨⟨d₂, o₂⟩, hclose⟩ := Option.isSome_iff_exists.mp (htotal.close htrace hactive huses)
  refine ⟨({ s.1 with updatesInbuf := s.1.updatesInbuf.erase b }, d₂), o₂, ?_, ?_⟩
  · simp [closeLogic, hupdates, hclose]
  · refine ⟨⟨d₂, o₀ ++ o₁ ++ o₂, [], [], itemsAt arr (b + 1), ?_, .nil, (List.append_nil _).symm,
      h.items (b + 1) (Nat.lt_succ_self b), rfl, fun _ => ⟨rfl, rfl⟩⟩, fun e he => ?_, fun e he => ?_,
      h.buffered⟩
    · exact htrace.epoch hactive huses hclose
    · exact h.items e (Nat.lt_of_succ_lt he)
    · have hne : ¬ b = e := Nat.ne_of_lt he
      have hsame : (s.1.updatesInbuf.erase b).getD e [] = s.1.updatesInbuf.getD e [] := by
        rw [TreeMap.getD_erase, if_neg (by simpa using hne)]
      show (s.1.updatesInbuf.erase b).getD e [] = _
      rw [hsame]
      exact h.updates e (Nat.le_of_succ_le he)

/-! ### One activation -/

variable {frontier : Frontier} {cap : Nat}

/-- **The loop over the closed epochs.** -/
theorem Core.run_closeEpoch (h : Core op Holds as arr b s o) (htotal : op.Total Holds as)
    (hpre : ∀ e, itemsAt arr e <+: itemsAt as e) (hhas : ∀ e, HasItems arr e → HasItems as e)
    (hactive : ∀ e, Active arr e → Active as e)
    {epochs : List Nat} (hsorted : epochs.Pairwise (· < ·)) (hcap : ∀ e ∈ epochs, cap ≤ e)
    (hb : ∀ e ∈ epochs, b ≤ e) (hclosed : ∀ e ∈ epochs, frontier.IsClosed e ∧ Active arr e)
    (hall : ∀ e, b ≤ e → frontier.IsClosed e → Active arr e → e ∈ epochs)
    (hcomplete : ∀ e, frontier.IsClosed e → Complete as arr e) :
    ∃ cap' b' s' o', Runs.run (EagerNotificator.closeEpoch op.eagerLogic op.closeLogic) (cap, s)
        epochs = some ((cap', s'), o') ∧ Core op Holds as arr b' s' (o ++ o') ∧
      (∀ f, ¬ frontier.IsClosed f → b ≤ f → b' ≤ f) ∧
      (∀ f, ¬ frontier.IsClosed f → cap ≤ f → cap' ≤ f) ∧
      ∀ e, b' ≤ e → frontier.IsClosed e → ¬ Active arr e := by
  induction epochs generalizing cap b s o with
  | nil =>
    refine ⟨cap, b, s, [], rfl, ?_, fun f _ hf => hf, fun f _ hf => hf, fun e he hc hact => ?_⟩
    · rw [List.append_nil]
      exact h
    · exact absurd (hall e he hc hact) List.not_mem_nil
  | cons e epochs ih =>
    obtain ⟨hlt, hsorted⟩ := List.pairwise_cons.mp hsorted
    obtain ⟨he, hact⟩ := hclosed e List.mem_cons_self
    have hidle : ∀ e', b ≤ e' → e' < e → ¬ Active arr e' ∧ ¬ Active as e' := by
      intro e' hbe hlt'
      have hc : frontier.IsClosed e' := fun t ht => Nat.lt_trans hlt' (he t ht)
      have hnot : ¬ Active arr e' := by
        intro hact'
        rcases List.mem_cons.mp (hall e' hbe hc hact') with rfl | hmem
        · exact Nat.lt_irrefl _ hlt'
        · exact Nat.lt_asymm hlt' (hlt e' hmem)
      exact ⟨hnot, fun hin => hnot ((hcomplete e' hc).active hin)⟩
    have hcore := h.advance (hb e List.mem_cons_self) hidle
    obtain ⟨s₁, o₁, heager, hcore₁, hempty⟩ := hcore.eager htotal hact (hpre e) (hhas e)
    obtain ⟨s₂, o₂, hclose, hcore₂⟩ := hcore₁.close htotal (hcomplete e he) (hactive e hact) hempty
    have hstep : EagerNotificator.closeEpoch op.eagerLogic op.closeLogic (cap, s) e =
        some ((e, s₂), o₁ ++ o₂) := by
      simp [EagerNotificator.closeEpoch, hcap e List.mem_cons_self, heager, hclose]
    rw [List.append_assoc] at hcore₂
    obtain ⟨cap', b', s', o', hrun, hcore', hb', hcap', hrest⟩ := ih hcore₂ hsorted
      (fun e' hmem => Nat.le_of_lt (hlt e' hmem)) hlt
      (fun e' hmem => hclosed e' (List.mem_cons_of_mem _ hmem)) (fun e' hbe hc hact' => by
        refine (List.mem_cons.mp (hall e' ?_ hc hact')).resolve_left ?_
        · exact Nat.le_trans (hb e List.mem_cons_self) (Nat.le_of_succ_le hbe)
        · exact Nat.ne_of_gt hbe)
    refine ⟨cap', b', s', o₁ ++ o₂ ++ o', Runs.run_cons hstep hrun, ?_, ?_, ?_, hrest⟩
    · rwa [List.append_assoc] at hcore'
    · exact fun f hf _ => hb' f hf (he.lt hf)
    · exact fun f hf _ => hcap' f hf (Nat.le_of_lt (he.lt hf))

theorem itemsAt_singleton : itemsAt [a] e = (Keyed.valuesOf e a.items).flatten := by
  simp [itemsAt]

theorem updatesAt_singleton : updatesAt [a] e = (Keyed.valuesOf e a.updates).flatten := by
  simp [updatesAt]

theorem active_singleton :
    Active [a] e ↔ e ∈ a.items.map Prod.fst ∨ e ∈ a.updates.map Prod.fst := by
  simp [Active, HasItems]

/-- Messages of open epochs arrive. -/
theorem Core.arrive {d : D} {bufs bufs' : EpochBufs B U} (h : Core op Holds as arr b (bufs, d) o)
    (hitems : ∀ e xs, Pending Holds bufs.itemsInbuf[e]? xs →
      Pending Holds bufs'.itemsInbuf[e]? (xs ++ (Keyed.valuesOf e a.items).flatten))
    (hupdates : ∀ e, bufs'.updatesInbuf.getD e [] =
      bufs.updatesInbuf.getD e [] ++ (Keyed.valuesOf e a.updates).flatten)
    (hsame : ∀ e, e ∉ a.items.map Prod.fst → bufs'.itemsInbuf[e]? = bufs.itemsInbuf[e]?) :
    Core op Holds as (arr ++ [a]) b (bufs', d) o := by
  obtain ⟨d₀, o₀, xs, o₁, ys, htrace, huses, ho, hpending, hxs, hnone⟩ := h.trace
  refine ⟨⟨d₀, o₀, xs, o₁, _, htrace, huses, ho, hitems b ys hpending, ?_, fun hnot => hnone ?_⟩,
    fun e he => ?_, fun e he => ?_, fun e he => ?_⟩
  · rw [itemsAt_append, itemsAt_singleton, ← List.append_assoc, hxs]
  · exact fun hin => hnot (active_append.mpr (.inl hin))
  · rw [itemsAt_append, itemsAt_singleton]
    exact hitems e _ (h.items e he)
  · rw [updatesAt_append, updatesAt_singleton, ← h.updates e he]
    exact hupdates e
  · by_cases hmem : e ∈ a.items.map Prod.fst
    · exact hasItems_append.mpr (.inr (by simpa [HasItems] using hmem))
    · replace he : (bufs'.itemsInbuf[e]?).isSome := he
      rw [hsame e hmem] at he
      exact hasItems_append.mpr (.inl (h.buffered e he))

/-- What holds between activations: the operator is open at the last frontier, whose items are used
up, or it is past the end of the input. -/
def RunInv (op : EpochOp A B U D ω) (Holds : List A → B → Prop)
    (as arr : List (EpochActivation A U)) (s : EpochState B U D) (o : List ω) : Prop :=
  (∃ cap d, s.ncater.capsState = some (cap, d) ∧
      (∀ a ∈ arr.getLast?, a.frontier = some cap ∧
        (Active arr cap → s.bufs.itemsInbuf[cap]? = none)) ∧
      (arr = [] → cap = 0) ∧ Core op Holds as arr cap (s.bufs, d) o ∧
      ∀ e, e ∈ s.ncater.queue ↔ Active arr e ∧ cap ≤ e) ∨
    (s.ncater.capsState = none ∧ (∃ a ∈ arr.getLast?, a.frontier = none) ∧
      ∃ b d, op.Trace Holds as b d o ∧ ∀ e, b ≤ e → ¬ Active as e)

theorem RunInv.init (op : EpochOp A B U D ω) (Holds : List A → B → Prop)
    (as : List (EpochActivation A U)) : RunInv op Holds as [] op.start [] :=
  .inl ⟨0, op.init, rfl, by simp, fun _ => rfl, .init op Holds as, by simp [start,
    EagerNotificator.new, Active, HasItems]⟩

/-- **One activation.** -/
theorem RunInv.activate {s : EpochState B U D} (h : RunInv op Holds as arr s o)
    (hbuf : op.Buffers Holds) (htotal : op.Total Holds as)
    (hfrontier : ∀ a' ∈ arr.getLast?, a'.frontier.Le a.frontier)
    (hitems : ∀ a' ∈ arr.getLast?, ∀ m ∈ a.items, a'.frontier.Admits m.1)
    (hupdates : ∀ a' ∈ arr.getLast?, ∀ m ∈ a.updates, a'.frontier.Admits m.1)
    (hpre : ∀ e, itemsAt (arr ++ [a]) e <+: itemsAt as e)
    (hhas : ∀ e, HasItems (arr ++ [a]) e → HasItems as e)
    (hactive : ∀ e, Active (arr ++ [a]) e → Active as e)
    (hcomplete : ∀ e, a.frontier.IsClosed e → Complete as (arr ++ [a]) e) :
    ∃ s' o', op.activate s a = some (s', o') ∧ RunInv op Holds as (arr ++ [a]) s' (o ++ o') := by
  rcases h with ⟨cap, d, hcaps, hlast, hnil, hcore, hqueue⟩ | ⟨hcaps, ⟨a', ha', heof⟩, b, d, htrace⟩
  · -- the operator is open: all that arrives is of epochs from `cap` on
    have hfrom : ∀ e, (∀ a' ∈ arr.getLast?, a'.frontier.Admits e) → cap ≤ e := by
      intro e he
      cases hl : arr.getLast? with
      | none =>
        rw [hnil (List.getLast?_eq_none_iff.mp hl)]
        exact Nat.zero_le e
      | some a' =>
        obtain ⟨t, ht, hle⟩ := he a' hl
        rw [(hlast a' hl).1] at ht
        exact Option.some.inj ht ▸ hle
    have hnew : ∀ e, Active [a] e → cap ≤ e := by
      intro e he
      rcases active_singleton.mp he with hin | hin
      · obtain ⟨m, hm, rfl⟩ := List.mem_map.mp hin
        exact hfrom m.1 fun a' ha' => hitems a' ha' m hm
      · obtain ⟨m, hm, rfl⟩ := List.mem_map.mp hin
        exact hfrom m.1 fun a' ha' => hupdates a' ha' m hm
    have hsome : s.ncater.capsState.isSome := by rw [hcaps]; rfl
    obtain ⟨s₁, hr₁, hu₁, hc₁, hi₁, hsame₁, hq₁⟩ := foldlM_receiveItems hbuf hsome a.items
    obtain ⟨s₂, hr₂, hi₂, hc₂, hu₂, hq₂⟩ :=
      foldlM_receiveUpdates (s := s₁) (hc₁ ▸ hsome) a.updates
    have hcore₂ : Core op Holds as (arr ++ [a]) cap (s₂.bufs, d) o := by
      refine hcore.arrive (fun e xs hxs => ?_) (fun e => ?_) fun e he => ?_
      · rw [hi₂]
        exact hi₁ e xs hxs
      · rw [hu₂, hu₁]
      · rw [hi₂]
        exact hsame₁ e he
    have hqueue₂ : ∀ e, e ∈ s₂.ncater.queue ↔ Active (arr ++ [a]) e ∧ cap ≤ e := by
      intro e
      rw [hq₂, hq₁, hqueue, active_append, or_assoc, ← active_singleton]
      constructor
      · rintro (⟨hin, hle⟩ | hin)
        · exact ⟨.inl hin, hle⟩
        · exact ⟨.inr hin, hnew e hin⟩
      · rintro ⟨hin | hin, hle⟩
        · exact .inl ⟨hin, hle⟩
        · exact .inr hin
    have hn₂ : s₂.ncater.capsState = some (cap, d) := hc₂.trans (hc₁.trans hcaps)
    have hsorted : (s₂.ncater.queue.filter fun e => a.frontier.IsClosed e).toList.Pairwise (· < ·) :=
      TreeSet.ordered_toList.imp fun hlt => Nat.compare_eq_lt.mp hlt
    have hfrom₂ : ∀ e ∈ (s₂.ncater.queue.filter fun e => a.frontier.IsClosed e).toList, cap ≤ e :=
      fun e he => ((hqueue₂ e).mp (EagerNotificator.mem_closedEpochs.mp he).1).2
    obtain ⟨cap', b', ⟨bufs₃, d₃⟩, o₃, hrun, hcore₃, hb', hcap', hrest⟩ :=
      hcore₂.run_closeEpoch htotal hpre hhas hactive hsorted hfrom₂ hfrom₂
        (fun e he => by
          obtain ⟨hmem, hc⟩ := EagerNotificator.mem_closedEpochs.mp he
          exact ⟨hc, ((hqueue₂ e).mp hmem).1⟩)
        (fun e hle hc hact => EagerNotificator.mem_closedEpochs.mpr
          ⟨(hqueue₂ e).mpr ⟨hact, hle⟩, hc⟩) hcomplete
    have hidle : ∀ e, b' ≤ e → a.frontier.IsClosed e →
        ¬ Active (arr ++ [a]) e ∧ ¬ Active as e := fun e hle hc =>
      ⟨hrest e hle hc, fun hin => hrest e hle hc ((hcomplete e hc).active hin)⟩
    cases hf : a.frontier with
    | some f =>
      rw [hf] at hrun hidle
      have hle : cap ≤ f := hfrom f fun a' ha' => hfrontier a' ha' f hf
      have hopen : ¬ Frontier.IsClosed (some f) f := by simp
      have hbf := hb' f (hf ▸ hopen) hle
      have hcapf := hcap' f (hf ▸ hopen) hle
      have hcoref := hcore₃.advance hbf fun e hbe hlt =>
        hidle e hbe (Frontier.isClosed_some.mpr hlt)
      have hqueuef : ∀ e, e ∈ (s₂.ncater.queue.filter fun e => ¬ Frontier.IsClosed (some f) e) ↔
          Active (arr ++ [a]) e ∧ f ≤ e := by
        intro e
        rw [EagerNotificator.mem_openEpochs, hqueue₂, Frontier.isClosed_some, Nat.not_lt]
        exact ⟨fun ⟨⟨hact, _⟩, hfe⟩ => ⟨hact, hfe⟩,
          fun ⟨hact, hfe⟩ => ⟨⟨hact, Nat.le_trans hle hfe⟩, hfe⟩⟩
      have hlast' : ∀ {p : Prop}, p → ∀ a' ∈ (arr ++ [a]).getLast?, a'.frontier = some f ∧ p := by
        intro p hp a' ha'
        rw [List.getLast?_concat] at ha'
        cases ha'
        exact ⟨hf, hp⟩
      have hnil' : arr ++ [a] = [] → f = 0 := fun hnil =>
        absurd hnil (List.append_ne_nil_of_right_ne_nil _ (List.cons_ne_nil _ _))
      by_cases hact : Active (arr ++ [a]) f
      · obtain ⟨⟨bufs₄, d₄⟩, o₄, heager, hcore₄, hempty⟩ := hcoref.eager htotal hact (hpre f) (hhas f)
        refine ⟨⟨bufs₄, ⟨some (f, d₄), _⟩⟩, o₃ ++ o₄, ?_, .inl ⟨f, d₄, rfl, ?_, hnil', ?_, hqueuef⟩⟩
        · have hmem := (hqueuef f).mpr ⟨hact, Nat.le_refl f⟩
          simp only [EpochOp.activate, hr₁, hr₂, hf, EagerNotificator.forEach, hn₂, hrun,
            EagerNotificator.downgradeAll_of_le hcapf, hmem, if_true, heager, Option.bind_eq_bind,
            Option.bind_some, Option.pure_def]
          rfl
        · exact hlast' fun _ => hempty
        · rwa [← List.append_assoc]
      · refine ⟨⟨bufs₃, ⟨some (f, d₃), _⟩⟩, o₃, ?_, .inl ⟨f, d₃, rfl, ?_, hnil', hcoref, hqueuef⟩⟩
        · have hmem : f ∉ (s₂.ncater.queue.filter fun e => ¬ Frontier.IsClosed (some f) e) :=
            fun hin => hact ((hqueuef f).mp hin).1
          simp only [EpochOp.activate, hr₁, hr₂, hf, EagerNotificator.forEach, hn₂, hrun,
            EagerNotificator.downgradeAll_of_le hcapf, hmem, if_false, Option.bind_eq_bind,
            Option.bind_some, Option.pure_def]
          rfl
        · exact hlast' fun hin => absurd hin hact
    | none =>
      rw [hf] at hrun hidle
      have hclosed : ∀ e, Frontier.IsClosed none e := fun e => Frontier.isClosed_none
      obtain ⟨d₀, o₀, xs, o₁, ys, htrace, -, ho, -, -, hnone⟩ := hcore₃.trace
      obtain ⟨-, rfl⟩ := hnone (hidle b' (Nat.le_refl b') (hclosed b')).1
      refine ⟨⟨bufs₃, ⟨none, s₂.ncater.queue.filter fun e => ¬ Frontier.IsClosed none e⟩⟩, o₃, ?_,
        .inr ⟨rfl, ⟨a, ?_, hf⟩, b', d₀, ?_, fun e hle => (hidle e hle (hclosed e)).2⟩⟩
      · simp only [EpochOp.activate, hr₁, hr₂, hf, EagerNotificator.forEach, hn₂, hrun,
          Option.bind_eq_bind, Option.bind_some, Option.pure_def]
      · rw [List.getLast?_concat]
        rfl
      · rw [ho, List.append_nil]
        exact htrace
  · -- past the end of the input nothing arrives
    have hnothing : ∀ {m : Nat}, ¬ a'.frontier.Admits m := by
      rintro m ⟨t, ht, -⟩
      rw [heof] at ht
      cases ht
    have hi : a.items = [] := List.eq_nil_iff_forall_not_mem.mpr fun m hm =>
      hnothing (hitems a' ha' m hm)
    have hu : a.updates = [] := List.eq_nil_iff_forall_not_mem.mpr fun m hm =>
      hnothing (hupdates a' ha' m hm)
    have hf : a.frontier = none := Option.eq_none_iff_forall_not_mem.mpr fun t ht => by
      obtain ⟨t', ht', -⟩ := hfrontier a' ha' t ht
      rw [heof] at ht'
      cases ht'
    refine ⟨s, [], ?_, .inr ⟨hcaps, ⟨a, ?_, hf⟩, b, d, ?_⟩⟩
    · simp [EpochOp.activate, hi, hu, EagerNotificator.forEach_of_none hcaps]
    · rw [List.getLast?_concat]
      rfl
    · rw [List.append_nil]
      exact htrace

/-! ### Runs -/

/-- What the operator has put out after activations: what it does in whole epochs until the last
frontier, and then in the epoch of the frontier with the items so far; or, at the end of the
inputs, what it does in all epochs. -/
def Ends (op : EpochOp A B U D ω) (Holds : List A → B → Prop) (as : List (EpochActivation A U))
    (o : List ω) : Prop :=
  (∃ f d₀ o₀ d o₁, lastFrontier as = some f ∧ op.Trace Holds as f d₀ o₀ ∧
      op.Uses Holds f d₀ (itemsAt as f) d o₁ ∧ o = o₀ ++ o₁) ∨
    (lastFrontier as = none ∧ ∀ n, (∀ e, n ≤ e → ¬ Active as e) → ∃ d, op.Trace Holds as n d o)

theorem Trace.extend {d : D} {n : Nat} (h : op.Trace Holds as b d o) (hn : b ≤ n)
    (hidle : ∀ e, b ≤ e → ¬ Active as e) : op.Trace Holds as n d o := by
  induction n, hn using Nat.le_induction with
  | base => exact h
  | succ n hn ih => exact ih.idle (hidle n hn)

theorem Trace.truncate {d : D} {n : Nat} (h : op.Trace Holds as b d o) (hn : n ≤ b)
    (hidle : ∀ e, n ≤ e → ¬ Active as e) : op.Trace Holds as n d o := by
  induction h with
  | start =>
    obtain rfl := Nat.le_zero.mp hn
    exact .start
  | @idle e d o h hnot ih =>
    rcases Nat.eq_or_lt_of_le hn with rfl | hlt
    · exact h.idle hnot
    · exact ih (Nat.le_of_lt_succ hlt)
  | @epoch e d d₁ d₂ o o₁ o₂ h hactive huses hclose ih =>
    rcases Nat.eq_or_lt_of_le hn with rfl | hlt
    · exact h.epoch hactive huses hclose
    · exact absurd hactive (hidle e (Nat.le_of_lt_succ hlt))

theorem not_active_beyond (h : beyond as ≤ e) : ¬ Active as e := by
  have hall : ∀ l : List Nat, ∀ x ∈ l, x ≤ l.foldr max 0 := by
    intro l
    induction l with
    | nil => simp
    | cons y l ih =>
      intro x hx
      rw [List.foldr_cons]
      rcases List.mem_cons.mp hx with rfl | hx
      · exact Nat.le_max_left _ _
      · exact Nat.le_trans (ih x hx) (Nat.le_max_right _ _)
  intro hin
  have hle := hall _ e (List.mem_append.mpr hin)
  unfold beyond at h
  omega

/-- No message is of an epoch that was closed before. -/
theorem complete_of_schedule (has : EpochSchedule (arr ++ a :: rest)) (he : a.frontier.IsClosed e) :
    Complete (arr ++ a :: rest) (arr ++ [a]) e := by
  have hlater : ¬ Active rest e := by
    have hnot : ∀ a' ∈ rest, ∀ {m : Nat}, a.frontier.Admits m → m ≠ e := by
      rintro a' ha' m ⟨t, ht, hle⟩ rfl
      exact absurd (he t ht) (Nat.not_lt_of_le hle)
    rintro (hin | hin)
    · obtain ⟨m, hm, rfl⟩ := List.mem_map.mp hin
      obtain ⟨a', ha', hm⟩ := List.mem_flatMap.mp hm
      have hafter := (List.pairwise_cons.mp (List.pairwise_append.mp has.items).2.1).1 a' ha'
      exact hnot a' ha' (hafter m hm) rfl
    · obtain ⟨m, hm, rfl⟩ := List.mem_map.mp hin
      obtain ⟨a', ha', hm⟩ := List.mem_flatMap.mp hm
      have hafter := (List.pairwise_cons.mp (List.pairwise_append.mp has.updates).2.1).1 a' ha'
      exact hnot a' ha' (hafter m hm) rfl
  have hsplit : arr ++ a :: rest = (arr ++ [a]) ++ rest := by simp
  rw [hsplit]
  refine ⟨?_, ?_, fun hin => (active_append.mp hin).resolve_right hlater⟩
  · rw [itemsAt_append, itemsAt_append, itemsAt_append, itemsAt_of_not_active hlater,
      List.append_nil]
  · rw [updatesAt_append, updatesAt_append, updatesAt_append, updatesAt_of_not_active hlater,
      List.append_nil]

/-- **Epochs are run in order, however their messages arrive**: an operator whose logics do not
panic does not, and puts out what it does in whole epochs. -/
theorem run_activate (hbuf : op.Buffers Holds) (htotal : op.Total Holds as)
    (has : EpochSchedule as) :
    ∃ s o, Runs.run op.activate op.start as = some (s, o) ∧ RunInv op Holds as as s o := by
  suffices hall : ∀ arr rest, as = arr ++ rest →
      ∃ s o, Runs.run op.activate op.start arr = some (s, o) ∧ RunInv op Holds as arr s o from
    hall as [] (List.append_nil as).symm
  intro arr
  induction arr using List.reverseRecOn with
  | nil => exact fun rest _ => ⟨_, [], rfl, .init op Holds as⟩
  | append_singleton arr a ih =>
    intro rest heq
    have heq' : as = arr ++ a :: rest := by rw [heq, List.append_assoc]; rfl
    obtain ⟨s, o, hr, hinv⟩ := ih (a :: rest) heq'
    have hlast : ∀ a' ∈ arr.getLast?, a' ∈ arr := fun a' ha' => List.mem_of_getLast? ha'
    have hsched := has
    rw [heq'] at hsched
    obtain ⟨s', o', hs, hinv'⟩ := hinv.activate (a := a) hbuf htotal
      (fun a' ha' => (List.pairwise_append.mp hsched.frontier).2.2 a' (hlast a' ha') a (by simp))
      (fun a' ha' => (List.pairwise_append.mp hsched.items).2.2 a' (hlast a' ha') a (by simp))
      (fun a' ha' => (List.pairwise_append.mp hsched.updates).2.2 a' (hlast a' ha') a (by simp))
      (fun e => ⟨itemsAt rest e, by rw [heq, itemsAt_append, itemsAt_append, itemsAt_append]⟩)
      (fun e hin => by rw [heq]; exact hasItems_append.mpr (.inl hin))
      (fun e hin => by rw [heq]; exact active_append.mpr (.inl hin))
      (fun e he => by rw [heq']; exact complete_of_schedule hsched he)
    refine ⟨s', o ++ o', Runs.run_append_of_eq_some hr ?_, hinv'⟩
    rw [Runs.run_singleton]
    exact hs

theorem RunInv.ends {s : EpochState B U D} (h : RunInv op Holds as as s o) :
    op.Ends Holds as o := by
  rcases h with ⟨cap, d, -, hlast, hnil, hcore, -⟩ | ⟨-, ⟨a, ha, hend⟩, b, d, htrace, hidle⟩
  · obtain ⟨d₀, o₀, xs, o₁, ys, htrace, huses, ho, hpending, hxs, hnone⟩ := hcore.trace
    have hf : lastFrontier as = some cap := by
      unfold lastFrontier
      cases hl : as.getLast? with
      | none => rw [hnil (List.getLast?_eq_none_iff.mp hl)]
      | some a => exact (hlast a hl).1
    refine .inl ⟨cap, d₀, o₀, d, o₁, hf, htrace, ?_, ho⟩
    by_cases hact : Active as cap
    · cases hl : as.getLast? with
      | none =>
        rw [List.getLast?_eq_none_iff.mp hl] at hact
        simp [Active, HasItems] at hact
      | some a =>
        rw [(hlast a hl).2 hact] at hpending
        obtain rfl : ys = [] := hpending
        rw [List.append_nil] at hxs
        rw [← hxs]
        exact huses
    · obtain ⟨hd, rfl⟩ := hnone hact
      rw [itemsAt_of_not_active hact]
      have hd' : d = d₀ := hd
      rw [hd']
      exact .nil
  · have hf : lastFrontier as = none := by
      unfold lastFrontier
      rw [ha]
      exact hend
    refine .inr ⟨hf, fun n hn => ⟨d, ?_⟩⟩
    rcases Nat.le_total b n with hle | hle
    · exact htrace.extend hle hidle
    · exact htrace.truncate hle hn

theorem run_ends (hbuf : op.Buffers Holds) (htotal : op.Total Holds as) (has : EpochSchedule as) :
    ∃ s o, Runs.run op.activate op.start as = some (s, o) ∧ op.Ends Holds as o := by
  obtain ⟨s, o, hr, hinv⟩ := run_activate hbuf htotal has
  exact ⟨s, o, hr, hinv.ends⟩

end EpochOp
end Bytewax
