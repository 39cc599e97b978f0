import Bytewax.Window.Clock
import Mathlib.Data.List.Induction

/-!
# Bytewax.Window.Windower — the `Windower` and `WindowLogic` traits

The two records that the windowing operator is generic in, next to the clock: a windower says which
windows an instant falls in and which windows a watermark closes, a window logic folds the values
of one window.  A windower's operations are `none` where they panic.
-/

namespace Bytewax

/-- `WindowMetadata`. -/
structure WindowMetadata where
  openTime : Int
  closeTime : Int
  deriving DecidableEq, Repr

/-- The instant is one that the window reports to cover, both ends included. -/
def WindowMetadata.Covers (m : WindowMetadata) (t : Int) : Prop :=
  m.openTime ≤ t ∧ t ≤ m.closeTime

instance (m : WindowMetadata) (t : Int) : Decidable (m.Covers t) :=
  inferInstanceAs (Decidable (_ ∧ _))

/-- `InsertError`, with the `WindowKey` the item was late for. -/
inductive InsertError
  | late (key : Int)
  deriving DecidableEq, Repr

/-- `trait Windower`, over the windower's state.  A `WindowKey` is an integer. -/
structure Windower (W : Type) where
  build : W
  insert : W → (watermark itemTime : Int) → Option (W × List (Except InsertError Int))
  getMetadata : W → (key : Int) → Option WindowMetadata
  drainClosed : W → (watermark : Int) → Option (W × List (Int × WindowMetadata))
  isEmpty : W → Bool
  nextClose : W → Option (Option Int)

/-- A call that changes a windower. -/
inductive WindowerCall where
  | insert (watermark itemTime : Int)
  | drainClosed (watermark : Int)
  deriving DecidableEq, Repr

/-- What a call returns. -/
inductive WindowerResult where
  | inserted (result : Except InsertError Int)
  | closed (key : Int) (metadata : WindowMetadata)

/-- The windower after a call, and what the call returns. -/
def Windower.call {W : Type} (windower : Windower W) (w : W) :
    WindowerCall → Option (W × List WindowerResult)
  | .insert watermark itemTime =>
    (windower.insert w watermark itemTime).map fun r => (r.1, r.2.map .inserted)
  | .drainClosed watermark =>
    (windower.drainClosed w watermark).map fun r => (r.1, r.2.map fun c => .closed c.1 c.2)

/-- `trait WindowLogic<V, R, I>`, over the logic's state; `build` is the builder without a
snapshot to resume from. -/
structure WindowLogic (V R L : Type) where
  build : L
  withNext : L → Option (V × Int) → L × List R

namespace WindowLogic

variable {V R L : Type} (logic : WindowLogic V R L)

/-- The logic of a window after the values folded into it. -/
def after (values : List (V × Int)) : L :=
  values.foldl (fun l p => (logic.withNext l (some p)).1) logic.build

/-- What a window that got these values emits when it closes. -/
def closeOutput (values : List (V × Int)) : List R :=
  (logic.withNext (logic.after values) none).2

@[simp] theorem after_nil : logic.after [] = logic.build := rfl

theorem after_concat (values : List (V × Int)) (p : V × Int) :
    logic.after (values ++ [p]) = (logic.withNext (logic.after values) (some p)).1 := by
  simp [after]

end WindowLogic

/-- A window logic with its `snapshot`, and its builder from a snapshot to resume from. -/
structure ResumableLogic (V R S L : Type) extends WindowLogic V R L where
  resume : S → L
  snapshot : L → S

/-! ### The fold window operator -/

/-- `FoldWindowLogic`: an accumulator, emitted when the window closes. -/
def foldWindowLogic {V A : Type} (builder : A) (folder : A → V → A) :
    WindowLogic V A (Option A) where
  build := none
  withNext acc nextValue :=
    match nextValue with
    | some (value, _) => (some (folder (acc.getD builder) value), [])
    | none => (none, acc.toList)

/-- A fold window that got values emits their fold, once. -/
theorem foldWindowLogic_closeOutput {V A : Type} (builder : A) (folder : A → V → A)
    {values : List (V × Int)} (h : values ≠ []) :
    (foldWindowLogic builder folder).closeOutput values =
      [(values.map Prod.fst).foldl folder builder] := by
  have hafter : ∀ vs : List (V × Int), vs ≠ [] →
      (foldWindowLogic builder folder).after vs =
        some ((vs.map Prod.fst).foldl folder builder) := by
    intro vs
    induction vs using List.reverseRecOn with
    | nil => exact fun h => absurd rfl h
    | append_singleton vs p ih =>
      intro _
      rw [WindowLogic.after_concat]
      by_cases hvs : vs = []
      · subst hvs
        simp [foldWindowLogic]
      · rw [ih hvs]
        simp [foldWindowLogic]
  rw [WindowLogic.closeOutput, hafter values h]
  rfl

end Bytewax
