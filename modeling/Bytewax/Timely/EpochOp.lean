import Bytewax.Lib.Keyed
import Bytewax.Operators.EagerNotificator
import Bytewax.Operators.Unary

/-!
# Bytewax.Timely.EpochOp — operators that use up items and apply updates

Most of the operators under the recovery system have the same two inputs and an
`EagerNotificator`: items, which the eager logic uses up as soon as their epoch is the frontier
epoch, and updates, which the close logic applies when their epoch closes.  `EpochOp` is what such
an operator does with a buffer of items and with the updates of an epoch; `activate` is one
activation.
-/

namespace Bytewax

open Std (TreeMap TreeSet)

/-- The logics of an operator: its first state, how a batch of items is buffered, and what is done
with the buffered items and with the updates of an epoch; `none` is a panic. -/
structure EpochOp (A B U D ω : Type) where
  init : D
  push : Option B → List A → B
  use : (epoch : Nat) → D → B → Option (D × List ω)
  close : (epoch : Nat) → D → List U → Option (D × List ω)

/-- What the logics borrow: the buffers of the two inputs. -/
structure EpochBufs (B U : Type) where
  itemsInbuf : TreeMap Nat B
  updatesInbuf : TreeMap Nat (List U)

/-- The state of the operator between activations. -/
structure EpochState (B U D : Type) where
  bufs : EpochBufs B U
  ncater : EagerNotificator D

/-- What an activation sees: the batches of the two inputs with their epochs, and the frontiers of
the two inputs. -/
structure EpochActivation (A U : Type) where
  items : List (Nat × List A)
  updates : List (Nat × List U)
  itemsFrontier : Frontier
  updatesFrontier : Frontier

/-- The frontier of all inputs. -/
def EpochActivation.frontier {A U : Type} (a : EpochActivation A U) : Frontier :=
  a.itemsFrontier.both a.updatesFrontier

/-- What Timely guarantees of the activations: frontiers do not go back, and what arrives is of an
epoch that was still open. -/
structure EpochSchedule {A U : Type} (as : List (EpochActivation A U)) : Prop where
  frontier : as.Pairwise fun a a' => a.frontier.Le a'.frontier
  items : as.Pairwise fun a a' => ∀ m ∈ a'.items, a.frontier.Admits m.1
  updates : as.Pairwise fun a a' => ∀ m ∈ a'.updates, a.frontier.Admits m.1

namespace EpochOp

variable {A B U D ω : Type}

section Model

variable (op : EpochOp A B U D ω)

/-- The operator when it is built. -/
def start : EpochState B U D := ⟨⟨∅, ∅⟩, .new op.init⟩

/-- A batch of items arrives. -/
def receiveItems (s : EpochState B U D) (incoming : Nat × List A) : Option (EpochState B U D) := do
  let buf := op.push s.bufs.itemsInbuf[incoming.1]? incoming.2
  let ncater ← s.ncater.notifyAt incoming.1
  return ⟨{ s.bufs with itemsInbuf := s.bufs.itemsInbuf.insert incoming.1 buf }, ncater⟩

/-- A batch of updates arrives. -/
def receiveUpdates (s : EpochState B U D) (incoming : Nat × List U) :
    Option (EpochState B U D) := do
  let updatesInbuf := Unary.extend s.bufs.updatesInbuf [incoming]
  let ncater ← s.ncater.notifyAt incoming.1
  return ⟨{ s.bufs with updatesInbuf }, ncater⟩

/-- The eager logic: use up what has arrived in the epoch. -/
def eagerLogic (epoch : Nat) (s : EpochBufs B U × D) :
    Option ((EpochBufs B U × D) × List ω) :=
  match s.1.itemsInbuf[epoch]? with
  | none => some (s, [])
  | some buf => do
    let (state, out) ← op.use epoch s.2 buf
    return (({ s.1 with itemsInbuf := s.1.itemsInbuf.erase epoch }, state), out)

/-- The close logic: apply the updates of the epoch. -/
def closeLogic (epoch : Nat) (s : EpochBufs B U × D) :
    Option ((EpochBufs B U × D) × List ω) := do
  let (state, out) ← op.close epoch s.2 (s.1.updatesInbuf.getD epoch [])
  return (({ s.1 with updatesInbuf := s.1.updatesInbuf.erase epoch }, state), out)

/-- One activation of the operator. -/
def activate (s : EpochState B U D) (a : EpochActivation A U) :
    Option (EpochState B U D × List ω) := do
  let s ← a.items.foldlM op.receiveItems s
  let s ← a.updates.foldlM receiveUpdates s
  let ((bufs, ncater), out) ← EagerNotificator.forEach op.eagerLogic op.closeLogic a.frontier s.bufs
    s.ncater
  return (⟨bufs, ncater⟩, out)

end Model

/-! ### Epochs -/

/-- The items that arrive in an epoch, in order. -/
def itemsAt (as : List (EpochActivation A U)) (e : Nat) : List A :=
  (Keyed.valuesOf e (as.flatMap EpochActivation.items)).flatten

/-- The updates that arrive in an epoch, in order. -/
def updatesAt (as : List (EpochActivation A U)) (e : Nat) : List U :=
  (Keyed.valuesOf e (as.flatMap EpochActivation.updates)).flatten

/-- The updates of all epochs before. -/
def updatesBefore (as : List (EpochActivation A U)) (e : Nat) : List U :=
  (List.range e).flatMap (updatesAt as)

/-- A batch of items arrives in the epoch. -/
def HasItems (as : List (EpochActivation A U)) (e : Nat) : Prop :=
  e ∈ (as.flatMap EpochActivation.items).map Prod.fst

/-- Something arrives in the epoch. -/
def Active (as : List (EpochActivation A U)) (e : Nat) : Prop :=
  HasItems as e ∨ e ∈ (as.flatMap EpochActivation.updates).map Prod.fst

/-- The frontier after the activations. -/
def lastFrontier (as : List (EpochActivation A U)) : Frontier :=
  match as.getLast? with
  | some a => a.frontier
  | none => some 0

/-- An epoch after all those in which something arrives. -/
def beyond (as : List (EpochActivation A U)) : Nat :=
  ((as.flatMap EpochActivation.items).map Prod.fst ++
    (as.flatMap EpochActivation.updates).map Prod.fst).foldr max 0 + 1

/-- The epochs before this one have been run, as far as what has arrived goes. -/
def horizon (as : List (EpochActivation A U)) : Nat :=
  match lastFrontier as with
  | some f => f + 1
  | none => beyond as

/-- The epochs before this one have been closed. -/
def closedHorizon (as : List (EpochActivation A U)) : Nat :=
  match lastFrontier as with
  | some f => f
  | none => beyond as

variable (op : EpochOp A B U D ω) (Holds : List A → B → Prop)

/-- The buffer after items have arrived holds them. -/
structure Buffers : Prop where
  push_none : ∀ ys, Holds ys (op.push none ys)
  push_some : ∀ {xs buf} ys, Holds xs buf → Holds (xs ++ ys) (op.push (some buf) ys)

/-- Items are used up in some batches, which need not be those in which they arrived. -/
inductive Uses (e : Nat) (d₀ : D) : List A → D → List ω → Prop
  | nil : Uses e d₀ [] d₀ []
  | use {xs ys : List A} {d d' : D} {o o' : List ω} {buf : B} (h : Uses e d₀ xs d o)
    (hbuf : Holds ys buf) (huse : op.use e d buf = some (d', o')) : Uses e d₀ (xs ++ ys) d' (o ++ o')

/-- What the operator does in whole epochs, in order: in each that is active it uses up all items,
and then applies the updates. -/
inductive Trace (as : List (EpochActivation A U)) : Nat → D → List ω → Prop
  | start : Trace as 0 op.init []
  | idle {e : Nat} {d : D} {o : List ω} (h : Trace as e d o) (hidle : ¬ Active as e) :
    Trace as (e + 1) d o
  | epoch {e : Nat} {d d₁ d₂ : D} {o o₁ o₂ : List ω} (h : Trace as e d o) (hactive : Active as e)
    (huses : op.Uses Holds e d (itemsAt as e) d₁ o₁)
    (hclose : op.close e d₁ (updatesAt as e) = some (d₂, o₂)) : Trace as (e + 1) d₂ (o ++ o₁ ++ o₂)

/-- No logic panics, in whatever batches the items are used. -/
structure Total (as : List (EpochActivation A U)) : Prop where
  use : ∀ {e d₀ o₀ xs d o ys buf}, op.Trace Holds as e d₀ o₀ → op.Uses Holds e d₀ xs d o →
    HasItems as e → xs ++ ys <+: itemsAt as e → Holds ys buf → (op.use e d buf).isSome
  close : ∀ {e d₀ o₀ d o}, op.Trace Holds as e d₀ o₀ → Active as e →
    op.Uses Holds e d₀ (itemsAt as e) d o → (op.close e d (updatesAt as e)).isSome

end EpochOp
end Bytewax
