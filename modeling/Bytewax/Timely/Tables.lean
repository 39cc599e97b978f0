import Bytewax.Lib.MapM
import Bytewax.Timely.EpochRun

/-!
# Bytewax.Timely.Tables — items looked up in the table of the epochs before

An operator whose updates make a table, and that looks each item up in it (`EpochOp.Reads`), uses
for the items of an epoch the table of the updates of all epochs before, however items, updates and
frontiers arrive.
-/

namespace Bytewax
namespace EpochOp

variable {A U D α : Type} {op : EpochOp A (List A) U D (Nat × α)} {apply : D → List U → D}
  {look : D → A → Option α} {as : List (EpochActivation A U)} {e b : Nat}

/-- `InBuffer::extend`, on the buffer of an epoch. -/
def extendBuffer (buf : Option (List A)) (incoming : List A) : List A :=
  match buf with
  | some buf => buf ++ incoming
  | none => incoming

/-- A list holds itself. -/
def IsList (xs buf : List A) : Prop := buf = xs

/-- Updates are applied to a table, and items are looked up in it one by one. -/
structure Reads (op : EpochOp A (List A) U D (Nat × α)) (apply : D → List U → D)
    (look : D → A → Option α) : Prop where
  push : op.push = extendBuffer
  use : ∀ {e d xs d' o}, op.use e d xs = some (d', o) →
    d' = d ∧ ∃ ys, xs.mapM (look d) = some ys ∧ o = ys.map (Prod.mk e)
  close : ∀ e d us, op.close e d us = some (apply d us, [])
  apply_nil : ∀ d, apply d [] = d

/-- The table of the updates of all epochs before. -/
def table (op : EpochOp A (List A) U D (Nat × α)) (apply : D → List U → D)
    (as : List (EpochActivation A U)) (e : Nat) : D :=
  (List.range e).foldl (fun d e => apply d (updatesAt as e)) op.init

/-- What is put out in an epoch; `none` if something is not in the table. -/
def emitsAt (op : EpochOp A (List A) U D (Nat × α)) (apply : D → List U → D) (look : D → A → Option α)
    (as : List (EpochActivation A U)) (e : Nat) : Option (List α) :=
  (itemsAt as e).mapM (look (op.table apply as e))

/-- What is put out in epochs: what `emits` says, in the order of epochs, up to the horizon. -/
structure Sends (as : List (EpochActivation A U)) (emits : Nat → Option (List α))
    (o : List (Nat × α)) : Prop where
  sent : ∀ e < horizon as, emits e = some (Keyed.valuesOf e o)
  nothing : ∀ e, horizon as ≤ e → Keyed.valuesOf e o = []
  ordered : (o.map Prod.fst).Pairwise (· ≤ ·)

/-- What is put out in the epochs before `b`. -/
structure SendsBefore (emits : Nat → Option (List α)) (b : Nat) (o : List (Nat × α)) : Prop where
  sent : ∀ e < b, emits e = some (Keyed.valuesOf e o)
  before : ∀ p ∈ o, p.1 < b
  ordered : (o.map Prod.fst).Pairwise (· ≤ ·)

theorem SendsBefore.zero (emits : Nat → Option (List α)) : SendsBefore emits 0 [] where
  sent e he := absurd he (Nat.not_lt_zero e)
  before p hp := by cases hp
  ordered := .nil

/-- One more epoch. -/
theorem SendsBefore.succ {emits : Nat → Option (List α)} {o : List (Nat × α)} {ys : List α}
    (h : SendsBefore emits b o) (hys : emits b = some ys) :
    SendsBefore emits (b + 1) (o ++ ys.map (Prod.mk b)) where
  sent e he := by
    rw [Keyed.valuesOf_append]
    rcases Nat.lt_succ_iff_lt_or_eq.mp he with hlt | rfl
    · have hnone : Keyed.valuesOf e (ys.map (Prod.mk b)) = [] := by
        refine Keyed.valuesOf_eq_nil fun hin => ?_
        rw [List.map_map] at hin
        obtain ⟨y, -, rfl⟩ := List.mem_map.mp hin
        exact Nat.lt_irrefl _ hlt
      rw [hnone, List.append_nil]
      exact h.sent e hlt
    · have hold : Keyed.valuesOf e o = [] := by
        refine Keyed.valuesOf_eq_nil fun hin => ?_
        obtain ⟨p, hp, rfl⟩ := List.mem_map.mp hin
        exact Nat.lt_irrefl _ (h.before p hp)
      rw [hold, List.nil_append, hys]
      exact congrArg some (Keyed.valuesOf_map_mk e ys).symm
  before p hp := by
    rcases List.mem_append.mp hp with hp | hp
    · exact Nat.lt_succ_of_lt (h.before p hp)
    · obtain ⟨y, -, rfl⟩ := List.mem_map.mp hp
      exact Nat.lt_succ_self b
  ordered := by
    rw [List.map_append, List.map_map]
    refine List.pairwise_append.mpr ⟨h.ordered, ?_, fun x hx y hy => ?_⟩
    · refine List.pairwise_map.mpr (List.pairwise_of_forall fun x y => ?_)
      exact Nat.le_refl b
    · obtain ⟨p, hp, rfl⟩ := List.mem_map.mp hx
      obtain ⟨z, -, rfl⟩ := List.mem_map.mp hy
      exact Nat.le_of_lt (h.before p hp)

theorem SendsBefore.sends {emits : Nat → Option (List α)} {o : List (Nat × α)}
    (h : SendsBefore emits (horizon as) o) : Sends as emits o where
  sent := h.sent
  nothing e he := Keyed.valuesOf_eq_nil fun hin => by
    obtain ⟨p, hp, rfl⟩ := List.mem_map.mp hin
    exact Nat.not_le_of_lt (h.before p hp) he
  ordered := h.ordered

/-! ### Tables -/

theorem table_succ : op.table apply as (e + 1) = apply (op.table apply as e) (updatesAt as e) := by
  rw [table, List.range_succ, List.foldl_append]
  rfl

theorem emitsAt_of_not_active (h : ¬ Active as e) : op.emitsAt apply look as e = some [] := by
  rw [emitsAt, itemsAt_of_not_active h]
  rfl

theorem buffers_of_push (h : op.push = extendBuffer) : op.Buffers IsList where
  push_none ys := by
    rw [h]
    rfl
  push_some ys hbuf := by
    rw [h, hbuf]
    rfl

/-- However the items of an epoch are batched, they are looked up one by one. -/
theorem Reads.uses {d₀ d : D} {xs : List A} {o : List (Nat × α)} (h : op.Reads apply look)
    (huses : op.Uses IsList e d₀ xs d o) :
    d = d₀ ∧ ∃ ys, xs.mapM (look d₀) = some ys ∧ o = ys.map (Prod.mk e) := by
  induction huses with
  | nil => exact ⟨rfl, [], rfl, rfl⟩
  | use _ hbuf huse ih =>
    obtain ⟨rfl, zs, hzs, rfl⟩ := ih
    obtain ⟨rfl, zs', hzs', rfl⟩ := h.use huse
    rw [hbuf] at hzs'
    exact ⟨rfl, zs ++ zs', MapM.append hzs hzs', List.map_append.symm⟩

/-- **Whole epochs.** -/
theorem Reads.trace {d : D} {o : List (Nat × α)} (h : op.Reads apply look)
    (htrace : op.Trace IsList as b d o) :
    d = op.table apply as b ∧ SendsBefore (op.emitsAt apply look as) b o := by
  induction htrace with
  | start => exact ⟨rfl, .zero _⟩
  | @idle e d o _ hidle ih =>
    obtain ⟨rfl, hsends⟩ := ih
    refine ⟨?_, ?_⟩
    · rw [table_succ, updatesAt_of_not_active hidle, h.apply_nil]
    · have hnext := hsends.succ (emitsAt_of_not_active hidle)
      rwa [List.map_nil, List.append_nil] at hnext
  | @epoch e d d₁ d₂ o o₁ o₂ _ _ huses hclose ih =>
    obtain ⟨rfl, hsends⟩ := ih
    obtain ⟨rfl, ys, hys, rfl⟩ := h.uses huses
    rw [h.close] at hclose
    cases hclose
    refine ⟨table_succ.symm, ?_⟩
    rw [List.append_nil]
    exact hsends.succ hys

/-- **Runs**: what is put out is what the tables of the epochs before say of the items. -/
theorem Reads.run (h : op.Reads apply look) (has : EpochSchedule as)
    (huse : ∀ e xs, HasItems as e → xs ⊆ itemsAt as e →
      (op.use e (op.table apply as e) xs).isSome) :
    ∃ s o, Runs.run op.activate op.start as = some (s, o) ∧
      Sends as (op.emitsAt apply look as) o := by
  have htotal : op.Total IsList as := by
    refine ⟨fun {e d₀ o₀ xs d o ys buf} htrace huses hhas hpre hbuf => ?_,
      fun {e d₀ o₀ d o} _ _ _ => ?_⟩
    · obtain ⟨rfl, -⟩ := h.uses huses
      obtain ⟨rfl, -⟩ := h.trace htrace
      rw [hbuf]
      exact huse e ys hhas (List.Subset.trans (List.subset_append_right xs ys) hpre.subset)
    · rw [h.close]
      rfl
  obtain ⟨s, o, hr, hends⟩ := run_ends (buffers_of_push h.push) htotal has
  refine ⟨s, o, hr, ?_⟩
  rcases hends with ⟨f, d₀, o₀, d, o₁, hf, htrace, huses, rfl⟩ | ⟨hf, hall⟩
  · obtain ⟨rfl, hsends⟩ := h.trace htrace
    obtain ⟨-, ys, hys, rfl⟩ := h.uses huses
    have hh : horizon as = f + 1 := by rw [horizon, hf]
    refine SendsBefore.sends ?_
    rw [hh]
    exact hsends.succ hys
  · obtain ⟨d, htrace⟩ := hall (beyond as) fun e he => not_active_beyond he
    have hh : horizon as = beyond as := by rw [horizon, hf]
    refine SendsBefore.sends ?_
    rw [hh]
    exact (h.trace htrace).2

/-- At the end of the inputs, all epochs have been run. -/
theorem Sends.ended {emits : Nat → Option (List α)} {o : List (Nat × α)} (h : Sends as emits o)
    (hend : lastFrontier as = none) (hidle : ∀ e, itemsAt as e = [] → emits e = some []) (e : Nat) :
    emits e = some (Keyed.valuesOf e o) := by
  rcases Nat.lt_or_ge e (horizon as) with hlt | hle
  · exact h.sent e hlt
  · have hh : horizon as = beyond as := by rw [horizon, hend]
    rw [h.nothing e hle, hidle e (itemsAt_of_not_active (not_active_beyond (hh ▸ hle)))]

end EpochOp
end Bytewax
