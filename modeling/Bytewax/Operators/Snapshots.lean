import Bytewax.Operators.BuiltinLogics
import Bytewax.Window.Windower

/-!
# Bytewax.Operators.Snapshots — which snapshots of the built-in logics are faithful

A snapshot is faithful if the logic that is built from it cannot be told from the one it was taken
of.  Those of `stateful_map`, `collect` and the joins always are.  `fold_final` takes an accumulator
of `None` for the lack of a resume state, and builds a new one; `FoldWindowLogic` takes it for the
lack of an accumulator.
-/

namespace Bytewax

/-! ### Logics of `unary` -/

/-- A call of a logic. -/
inductive LogicCall (V : Type)
  | onItem (now : Int) (value : V)
  | onNotify (sched : Int)
  | onEof

namespace UnaryLogic

variable {V W S L : Type} (logic : UnaryLogic V W S L)

/-- What the called method returns. -/
def call (l : L) : LogicCall V → LogicReturn W L
  | .onItem now value => logic.onItem l now value
  | .onNotify sched => logic.onNotify l sched
  | .onEof => logic.onEof l

/-- The values emitted and the decisions made in a sequence of calls. -/
def replies : L → List (LogicCall V) → List (List W × IsComplete)
  | _, [] => []
  | l, c :: cs => (logic.call l c).2 :: replies (logic.call l c).1 cs

/-- The states of a logic between calls: it is built afresh, called and retained, or rebuilt from its
own snapshot. -/
inductive Reachable : L → Prop
  | fresh (now : Int) : Reachable (logic.builder now none)
  | retained {l : L} (c : LogicCall V) :
    Reachable l → (logic.call l c).2.2 = .retain → Reachable (logic.call l c).1
  | rebuilt {l : L} (now : Int) :
    Reachable l → Reachable (logic.builder now (some (logic.snapshot l)))

/-- The logic rebuilt from its own snapshot replies as the original does. -/
def Faithful (l : L) : Prop :=
  ∀ now cs, logic.replies (logic.builder now (some (logic.snapshot l))) cs = logic.replies l cs

variable {logic} {l : L}

theorem Faithful.of_rebuilt_eq (h : ∀ now, logic.builder now (some (logic.snapshot l)) = l) :
    logic.Faithful l := fun now cs => by rw [h now]

end UnaryLogic

section

variable {V W S : Type}

/-- The accumulator of a rebuilt `fold_final` logic. -/
theorem resumeOr_some (state default : Py S) : resumeOr (some state) default = state.or default := by
  cases state <;> rfl

theorem foldFinal_faithful (builder : Py S) (folder : Py S → V → Py S) (state : Py S) :
    (foldFinal builder folder).Faithful state ↔ state ≠ none ∨ builder = none := by
  constructor
  · intro h
    by_contra hc
    rw [not_or, not_not] at hc
    obtain ⟨rfl, hb⟩ := hc
    -- both emit their accumulator at the end of the input
    have heof : [([builder], IsComplete.discard)] = [([none], .discard)] := h 0 [.onEof]
    injection heof with hreply
    injection hreply with hemit
    injection hemit with hnone
    exact hb hnone
  · intro h
    refine .of_rebuilt_eq fun now => ?_
    show resumeOr (some state) builder = state
    rw [resumeOr_some]
    rcases h with h | rfl
    · obtain ⟨s, rfl⟩ := Option.ne_none_iff_exists'.mp h
      rfl
    · cases state <;> rfl

/-- A state of `stateful_map` is only `None` if the builder returns it. -/
theorem statefulMap_reachable {builder : Py S} {mapper : Py S → V → Py S × W} {state : Py S}
    (h : (statefulMap builder mapper).Reachable state) : state = none → builder = none := by
  induction h with
  | fresh now => exact id
  | @retained state c _ hret ih =>
    cases c with
    | onItem now value =>
      simp only [UnaryLogic.call, statefulMap] at hret ⊢
      split at hret
      · cases hret
      · intro hnone
        cases hnone
    | onNotify sched => exact ih
    | onEof => exact ih
  | @rebuilt state now _ ih =>
    show resumeOr (some state) builder = none → _
    rw [resumeOr_some]
    cases state with
    | none => exact id
    | some s => exact fun hnone => by cases hnone

theorem statefulMap_rebuilt {builder : Py S} {mapper : Py S → V → Py S × W} {state : Py S}
    (now : Int) (h : (statefulMap builder mapper).Reachable state) :
    (statefulMap builder mapper).builder now (some state) = state := by
  show resumeOr (some state) builder = state
  rw [resumeOr_some]
  cases state with
  | none => exact statefulMap_reachable h rfl
  | some s => rfl

theorem statefulMap_faithful {builder : Py S} {mapper : Py S → V → Py S × W} {state : Py S}
    (h : (statefulMap builder mapper).Reachable state) :
    (statefulMap builder mapper).Faithful state :=
  .of_rebuilt_eq fun now => statefulMap_rebuilt now h

theorem collect_faithful (timeout : Int) (maxSize : Nat) (state : CollectState V) :
    (collect timeout maxSize).Faithful state :=
  .of_rebuilt_eq fun _ => rfl

theorem join_faithful {N : Type} [DecidableEq N] (names : List N) (running : Bool)
    (state : JoinState N V) : (join names running).Faithful state :=
  .of_rebuilt_eq fun _ => rfl

end

/-! ### Logics of windows -/

namespace ResumableLogic

variable {V R S L : Type} (logic : ResumableLogic V R S L)

/-- The values emitted in a sequence of calls of `with_next`. -/
def replies : L → List (Option (V × Int)) → List (List R)
  | _, [] => []
  | l, c :: cs => (logic.withNext l c).2 :: replies (logic.withNext l c).1 cs

/-- The states of the logic of a window that is open: it is built afresh, folds a value, or is
rebuilt from its own snapshot. -/
inductive Reachable : L → Prop
  | fresh : Reachable logic.build
  | folded {l : L} (value : V) (itemTime : Int) :
    Reachable l → Reachable (logic.withNext l (some (value, itemTime))).1
  | rebuilt {l : L} : Reachable l → Reachable (logic.resume (logic.snapshot l))

/-- The logic rebuilt from its own snapshot replies as the original does. -/
def Faithful (l : L) : Prop :=
  ∀ cs, logic.replies (logic.resume (logic.snapshot l)) cs = logic.replies l cs

end ResumableLogic

/-- `FoldWindowLogic` with its snapshots: `extract` takes `None` for the outer `Option`. -/
def foldWindow {V A : Type} (builder : Py A) (folder : Py A → V → Py A) :
    ResumableLogic V (Py A) (Py A) (Option (Py A)) where
  toWindowLogic := foldWindowLogic builder folder
  resume state := state.map some
  snapshot acc := acc.join

theorem foldWindow_faithful {V A : Type} (builder : Py A) (folder : Py A → V → Py A)
    (acc : Option (Py A)) : (foldWindow builder folder).Faithful acc ↔ acc ≠ some none := by
  constructor
  · rintro h rfl
    -- the original emits `None` when the window closes, the rebuilt one nothing
    have hclose : ([[]] : List (List (Py A))) = [[none]] := h [none]
    injection hclose with hreply
    cases hreply
  · intro h cs
    cases acc with
    | none => rfl
    | some a =>
      cases a with
      | none => exact absurd rfl h
      | some a => rfl

/-! ### All of them -/

/-- **Snapshots of the built-in logics are faithful**, but for an accumulator of `None`: of
`fold_final` unless the builder returns `None` as well, and of a fold window. -/
theorem snapshots_faithful {V W A N : Type} [DecidableEq N] :
    (∀ (builder : Py A) (folder : Py A → V → Py A) (state : Py A),
      (foldFinal builder folder).Reachable state →
        ((foldFinal builder folder).Faithful state ↔ state ≠ none ∨ builder = none)) ∧
    (∀ (builder : Py A) (mapper : Py A → V → Py A × W) (state : Py A),
      (statefulMap builder mapper).Reachable state → (statefulMap builder mapper).Faithful state) ∧
    (∀ (timeout : Int) (maxSize : Nat) (state : CollectState V),
      (collect timeout maxSize).Reachable state → (collect timeout maxSize).Faithful state) ∧
    (∀ (names : List N) (running : Bool) (state : JoinState N V),
      (join names running).Reachable state → (join names running).Faithful state) ∧
    (∀ (builder : Py A) (folder : Py A → V → Py A) (acc : Option (Py A)),
      (foldWindow builder folder).Reachable acc →
        ((foldWindow builder folder).Faithful acc ↔ acc ≠ some none)) := by
  refine ⟨fun builder folder state _ => foldFinal_faithful builder folder state,
    fun builder mapper state h => statefulMap_faithful h,
    fun timeout maxSize state _ => collect_faithful timeout maxSize state,
    fun names running state _ => join_faithful names running state,
    fun builder folder acc _ => foldWindow_faithful builder folder acc⟩

/-- Adding one for each item. -/
def countItem (state : Py Nat) (_ : Nat) : Py Nat := state.map (· + 1)

theorem snapshots_faithful_countItem :
    ((foldFinal (some 0) countItem).Reachable (some 1) ∧
      (foldFinal (some 0) countItem).Faithful (some 1)) ∧
    (statefulMap (some 0) fun state value => (countItem state value, value)).Reachable (some 1) ∧
      (statefulMap (some 0) fun state value => (countItem state value, value)).Faithful (some 1) := by
  have hfold : (foldFinal (some 0) countItem).Reachable (some 1) :=
    .retained (.onItem 0 7) (.fresh 0) rfl
  have hmap : (statefulMap (some 0) fun state value => (countItem state value, value)).Reachable
    (some 1) := .retained (.onItem 0 7) (.fresh 0) rfl
  obtain ⟨hfolds, hmaps, -⟩ := snapshots_faithful (V := Nat) (W := Nat) (A := Nat) (N := Nat)
  exact ⟨⟨hfold, (hfolds (some 0) countItem (some 1) hfold).mpr (.inl (by simp))⟩, hmap,
    hmaps (some 0) _ (some 1) hmap⟩

/-- A folder that keeps the last value, which is `None`. -/
theorem not_snapshots_faithful_lastValue :
    (foldFinal (some 0) fun (_ v : Py Nat) => v).Reachable none ∧
    (foldFinal (some 0) fun (_ v : Py Nat) => v).replies none [.onEof] = [([none], .discard)] ∧
    (foldFinal (some 0) fun (_ v : Py Nat) => v).replies
      ((foldFinal (some 0) fun (_ v : Py Nat) => v).builder 0
        (some ((foldFinal (some 0) fun (_ v : Py Nat) => v).snapshot none))) [.onEof] =
        [([some 0], .discard)] ∧
    ¬ (foldFinal (some 0) fun (_ v : Py Nat) => v).Faithful none ∧
    (foldWindow (some 0) fun (_ v : Py Nat) => v).Reachable (some none) ∧
    ¬ (foldWindow (some 0) fun (_ v : Py Nat) => v).Faithful (some none) := by
  refine ⟨.retained (.onItem 0 none) (.fresh 0) rfl, rfl, rfl, ?_, .folded none 0 .fresh, ?_⟩
  · rw [foldFinal_faithful]
    simp
  · rw [foldWindow_faithful]
    simp

end Bytewax
