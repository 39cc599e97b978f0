import Bytewax.Operators.BuiltinLogics
import Bytewax.Operators.UnaryNotify
import Bytewax.Operators.UnaryTrace

/-!
# Bytewax.Operators.Collect — `collect` neither loses nor repeats a value

A list is emitted when it is full, when a notification is due and when the input ends, and each time
the logic that has collected it is discarded.  What has been emitted, and what the key's logic still
holds, are the values of the key in order; a logic always holds a value, and fewer than make a list
full (`Conserved`).  The lists are objects that are not copied when they are emitted; `ListObjects`
is what the code does with them.
-/

namespace Bytewax

open Std (TreeMap TreeSet)

namespace Collect

variable {K V : Type} {timeout : Int} {maxSize : Nat}

/-- The values that the logic of a key holds. -/
def held (l : Option (CollectState V)) : List V := (l.map CollectState.acc).getD []

/-! ### The values -/

variable [LinearOrder K] (maxSize) in
/-- What has been emitted for a key and what its logic holds are the values of the key. -/
structure Conserved (k : K) (l : Option (CollectState V))
    (events : List (UnaryEvent K V (List V) (CollectState V))) : Prop where
  values : (Unary.sent k events).flatten ++ held l = Unary.received k events
  sizes : ∀ vs ∈ Unary.sent k events, 1 ≤ vs.length ∧ vs.length ≤ maxSize
  held_pos : ∀ s, l = some s → 1 ≤ s.acc.length ∧ s.acc.length < maxSize

variable [LinearOrder K] {k : K} {l l₁ : Option (CollectState V)}
  {events : List (UnaryEvent K V (List V) (CollectState V))}
  {x : UnaryEvent K V (List V) (CollectState V)}

theorem Conserved.congr {events' : List (UnaryEvent K V (List V) (CollectState V))}
    (h : Conserved maxSize k l events) (hsent : Unary.sent k events' = Unary.sent k events)
    (hreceived : Unary.received k events' = Unary.received k events) :
    Conserved maxSize k l events' :=
  ⟨by rw [hsent, hreceived, h.values], by rw [hsent]; exact h.sizes, h.held_pos⟩

/-- What a key's logic holds is emitted, and the logic is discarded. -/
theorem Conserved.flush {s : CollectState V} (h : Conserved maxSize k (some s) events)
    (hk : x.key = k) (hemit : x.emit = [s.acc]) (hitem : x.item? = none) :
    Conserved maxSize k none (events ++ [x]) := by
  obtain ⟨hpos, hlt⟩ := h.held_pos s rfl
  refine ⟨?_, fun vs hvs => ?_, fun s hs => by cases hs⟩
  · rw [Unary.sent_concat hk, hemit, Unary.received_concat hitem, ← h.values]
    simp [held]
  · rw [Unary.sent_concat hk, hemit, List.mem_append, List.mem_singleton] at hvs
    rcases hvs with hvs | rfl
    · exact h.sizes vs hvs
    · exact ⟨hpos, hlt.le⟩

/-- What `on_item` does, by what the logic holds. -/
theorem callItem_collect (now : Int) (l : Option (CollectState V)) (v : V) :
    Unary.callItem (collect timeout maxSize) now l v =
      if (held l ++ [v]).length ≥ maxSize then
        (⟨held l ++ [v], some (now + timeout)⟩, [held l ++ [v]], .discard)
      else (⟨held l ++ [v], some (now + timeout)⟩, [], .retain) := by
  cases l with
  | none => rfl
  | some s => rfl

theorem Conserved.onItem (hmax : 1 ≤ maxSize) (h : Conserved maxSize k l events) (e : Nat)
    (now : Int) (v : V) : Conserved maxSize k
      (Unary.kept (Unary.callItem (collect timeout maxSize) now l v))
      (events ++ [.onItem e k v (Unary.callItem (collect timeout maxSize) now l v).2.1
        (Unary.callItem (collect timeout maxSize) now l v).2.2]) := by
  have hlen : (held l).length < maxSize := by
    cases l with
    | none => exact hmax
    | some s => exact (h.held_pos s rfl).2
  rw [callItem_collect]
  by_cases hfull : (held l ++ [v]).length ≥ maxSize
  · rw [if_pos hfull]
    refine ⟨?_, fun vs hvs => ?_, fun s hs => by cases hs⟩
    · rw [Unary.received_concat_onItem, Unary.sent_concat_onItem, ← h.values]
      simp [held, Unary.kept]
    · rw [Unary.sent_concat_onItem] at hvs
      rcases List.mem_append.mp hvs with hvs | hvs
      · exact h.sizes vs hvs
      · rw [List.mem_singleton.mp hvs, List.length_append, List.length_singleton]
        omega
  · rw [if_neg hfull]
    refine ⟨?_, fun vs hvs => ?_, fun s hs => ?_⟩
    · rw [Unary.received_concat_onItem, Unary.sent_concat_onItem, ← h.values]
      simp [held, Unary.kept]
    · rw [Unary.sent_concat_onItem] at hvs
      rcases List.mem_append.mp hvs with hvs | hvs
      · exact h.sizes vs hvs
      · cases hvs
    · cases hs
      rw [List.length_append, List.length_singleton] at hfull ⊢
      omega

/-- **What each event of a key does to its values.** -/
theorem Conserved.step (hmax : 1 ≤ maxSize) (h : Conserved maxSize k l events)
    (hload : x.isLoad = false) (hs : Unary.KeyStep (collect timeout maxSize) k l x l₁) :
    Conserved maxSize k l₁ (events ++ [x]) := by
  cases hs with
  | onItem l e now v => exact h.onItem hmax e now v
  | onNotify s e sched => exact h.flush rfl rfl rfl
  | onEof s e => exact h.flush rfl rfl rfl
  | snap l e => exact h.congr (Unary.sent_concat_snap _) (Unary.received_concat rfl)
  | load l e now change => cases hload

/-- The list objects of a key, by reference, and the one that is the `acc` of the key's logic. -/
structure ListObjects (V : Type) where
  heap : List (List V)
  acc : Option Nat

namespace ListObjects

/-- `_CollectState()` makes a new list, if the key has no logic. -/
def build (o : ListObjects V) : ListObjects V :=
  match o.acc with
  | some _ => o
  | none => ⟨o.heap ++ [[]], some o.heap.length⟩

/-- `self.state.acc.append(value)`. -/
def append (o : ListObjects V) (r : Nat) (value : V) : ListObjects V :=
  { o with heap := o.heap.modify r (· ++ [value]) }

/-- Emit the list without a copy and discard the logic. -/
def flush (o : ListObjects V) : ListObjects V × List Nat := (⟨o.heap, none⟩, o.acc.toList)

/-- What an event of the key does with the objects, and the references that it emits. -/
def step {S : Type} (maxSize : Nat) (o : ListObjects V) :
    UnaryEvent K V (List V) S → Option (ListObjects V × List Nat)
  | .onItem _ _ value _ _ => do
    let o := o.build
    let r ← o.acc
    let o := o.append r value
    let acc ← o.heap[r]?
    return if acc.length ≥ maxSize then o.flush else (o, [])
  | .onNotify .. | .onEof .. => some o.flush
  | .snap .. | .load .. => some (o, [])

end ListObjects

variable [LinearOrder K] (maxSize) in
/-- The emitted references read as what was emitted; the list of the logic is not one of them. -/
structure Kept (k : K) (l : Option (CollectState V))
    (events : List (UnaryEvent K V (List V) (CollectState V))) (o : ListObjects V)
    (refs : List Nat) : Prop where
  run : Runs.run (ListObjects.step maxSize) ⟨[], none⟩ (events.filter fun x => x.key = k) =
    some (o, refs)
  nodup : refs.Nodup
  refs_eq : refs.map (o.heap[·]?) = (Unary.sent k events).map some
  acc_eq : l.map CollectState.acc = o.acc.bind (o.heap[·]?)
  acc_isSome : o.acc.isSome = l.isSome
  acc_not_mem : ∀ r, o.acc = some r → r < o.heap.length ∧ r ∉ refs

variable {o o₁ : ListObjects V} {refs rs : List Nat}

theorem Kept.lt_length (h : Kept maxSize k l events o refs) {r : Nat} (hr : r ∈ refs) :
    r < o.heap.length := by
  have hmem : o.heap[r]? ∈ (Unary.sent k events).map some := by
    rw [← h.refs_eq]
    exact List.mem_map.mpr ⟨r, hr, rfl⟩
  obtain ⟨vs, -, hvs⟩ := List.mem_map.mp hmem
  exact (List.getElem?_eq_some_iff.mp hvs.symm).1

theorem Kept.run_concat (h : Kept maxSize k l events o refs) (hk : x.key = k)
    (hs : ListObjects.step maxSize o x = some (o₁, rs)) :
    Runs.run (ListObjects.step maxSize) ⟨[], none⟩ ((events ++ [x]).filter fun x => x.key = k) =
      some (o₁, refs ++ rs) := by
  have hone : [x].filter (fun x => x.key = k) = [x] := by simp [hk]
  rw [List.filter_append, hone]
  exact Runs.run_append_of_eq_some h.run (by rw [Runs.run_singleton, hs])

/-- The list of the logic is emitted, and nothing has it any more. -/
theorem Kept.flush {s : CollectState V} (h : Kept maxSize k (some s) events o refs)
    (hk : x.key = k) (hemit : x.emit = [s.acc])
    (hs : ListObjects.step maxSize o x = some o.flush) :
    ∃ o₁ refs₁, Kept maxSize k none (events ++ [x]) o₁ refs₁ := by
  obtain ⟨r, hr⟩ := Option.isSome_iff_exists.mp h.acc_isSome
  obtain ⟨-, hnot⟩ := h.acc_not_mem r hr
  have hread : o.heap[r]? = some s.acc := by
    have hacc := h.acc_eq
    rw [hr] at hacc
    exact hacc.symm
  have hflush : o.flush = (⟨o.heap, none⟩, [r]) := by
    rw [ListObjects.flush, hr]
    rfl
  rw [hflush] at hs
  refine ⟨⟨o.heap, none⟩, refs ++ [r], h.run_concat hk hs, ?_, ?_, rfl, rfl, fun r hr => by cases hr⟩
  · exact h.nodup.append (List.nodup_singleton r) (by simpa using hnot)
  · rw [List.map_append, h.refs_eq, Unary.sent_concat hk, hemit, List.map_append, List.map_singleton,
      hread]
    rfl

/-- The logic of the key, built if it is not there, has a list of its own. -/
theorem Kept.build (h : Kept maxSize k l events o refs) :
    ∃ r, o.build.acc = some r ∧ o.build.heap[r]? = some (held l) ∧ r ∉ refs ∧
      ∀ r' ∈ refs, o.build.heap[r']? = o.heap[r']? := by
  cases hacc : o.acc with
  | none =>
    have hbuild : o.build = ⟨o.heap ++ [[]], some o.heap.length⟩ := by
      rw [ListObjects.build, hacc]
    have hl : l = none := by
      have hsome := h.acc_isSome
      rw [hacc] at hsome
      exact Option.isNone_iff_eq_none.mp (by simpa using hsome.symm)
    rw [hbuild, hl]
    refine ⟨o.heap.length, rfl, by simp [held], fun hr => ?_, fun r' hr' => ?_⟩
    · exact absurd (h.lt_length hr) (lt_irrefl _)
    · exact List.getElem?_append_left (h.lt_length hr')
  | some r =>
    have hbuild : o.build = o := by
      rw [ListObjects.build, hacc]
    have hread := h.acc_eq
    rw [hacc, Option.bind_some] at hread
    rw [hbuild]
    refine ⟨r, hacc, ?_, (h.acc_not_mem r hacc).2, fun _ _ => rfl⟩
    cases l with
    | none =>
      have hsome := h.acc_isSome
      rw [hacc] at hsome
      cases hsome
    | some s => exact hread.symm

/-- A value is appended to the list of the logic, and to none that has been emitted. -/
theorem Kept.append (h : Kept maxSize k l events o refs) (v : V) :
    ∃ r heap, o.build.acc = some r ∧ o.build.append r v = ⟨heap, some r⟩ ∧
      heap[r]? = some (held l ++ [v]) ∧ r ∉ refs ∧ refs.map (heap[·]?) =
        (Unary.sent k events).map some := by
  obtain ⟨r, hacc, hread, hnot, hsame⟩ := h.build
  refine ⟨r, o.build.heap.modify r (· ++ [v]), hacc, ?_, ?_, hnot, ?_⟩
  · rw [ListObjects.append, hacc]
  · rw [List.getElem?_modify_eq, hread]
    rfl
  · rw [← h.refs_eq]
    refine List.map_congr_left fun r' hr' => ?_
    have hne : r ≠ r' := fun he => hnot (he ▸ hr')
    rw [List.getElem?_modify_ne _ _ hne, hsame r' hr']

theorem Kept.onItem (h : Kept maxSize k l events o refs) (e : Nat) (now : Int) (v : V) :
    ∃ o₁ refs₁, Kept maxSize k (Unary.kept (Unary.callItem (collect timeout maxSize) now l v))
      (events ++ [.onItem e k v (Unary.callItem (collect timeout maxSize) now l v).2.1
        (Unary.callItem (collect timeout maxSize) now l v).2.2]) o₁ refs₁ := by
  obtain ⟨r, heap, hacc, happend, hread, hnot, hrefs⟩ := h.append v
  have hlt : r < heap.length := (List.getElem?_eq_some_iff.mp hread).1
  have hstep : ∀ emit isComplete, ListObjects.step maxSize o
      (.onItem e k v emit isComplete : UnaryEvent K V (List V) (CollectState V)) =
        some (if (held l ++ [v]).length ≥ maxSize then (⟨heap, none⟩, [r])
          else (⟨heap, some r⟩, [])) := by
    intro emit isComplete
    simp only [ListObjects.step, hacc, happend, Option.bind_eq_bind, Option.bind_some, hread]
    rfl
  rw [callItem_collect]
  by_cases hfull : (held l ++ [v]).length ≥ maxSize
  · rw [if_pos hfull]
    refine ⟨⟨heap, none⟩, refs ++ [r], h.run_concat rfl ?_, ?_, ?_, rfl, rfl, fun r hr => by cases hr⟩
    · rw [hstep, if_pos hfull]
    · exact h.nodup.append (List.nodup_singleton r) (by simpa using hnot)
    · rw [List.map_append, hrefs, Unary.sent_concat_onItem, List.map_append, List.map_singleton,
        hread]
      rfl
  · rw [if_neg hfull]
    refine ⟨⟨heap, some r⟩, refs, ?_, h.nodup, ?_, ?_, rfl, fun r' hr' => ?_⟩
    · have hrun := h.run_concat (x := .onItem e k v [] .retain) rfl (by rw [hstep, if_neg hfull])
      rw [List.append_nil] at hrun
      exact hrun
    · rw [hrefs, Unary.sent_concat_onItem, List.append_nil]
    · exact hread.symm
    · cases hr'
      exact ⟨hlt, hnot⟩

/-- **What each event of a key does to its list objects.** -/
theorem Kept.step (h : Kept maxSize k l events o refs) (hload : x.isLoad = false)
    (hs : Unary.KeyStep (collect timeout maxSize) k l x l₁) :
    ∃ o₁ refs₁, Kept maxSize k l₁ (events ++ [x]) o₁ refs₁ := by
  cases hs with
  | onItem l e now v => exact h.onItem e now v
  | onNotify s e sched => exact h.flush rfl rfl rfl
  | onEof s e => exact h.flush rfl rfl rfl
  | snap l e =>
    refine ⟨o, refs, ?_, h.nodup, ?_, h.acc_eq, h.acc_isSome, h.acc_not_mem⟩
    · have hrun := h.run_concat (x := .snap e k (Unary.changeOf (collect timeout maxSize) l)) rfl rfl
      rw [List.append_nil] at hrun
      exact hrun
    · rw [h.refs_eq, Unary.sent_concat_snap]
  | load l e now change => cases hload

theorem Kept.other (h : Kept maxSize k l events o refs) (hk : x.key ≠ k) :
    Kept maxSize k l (events ++ [x]) o refs := by
  refine ⟨?_, h.nodup, ?_, h.acc_eq, h.acc_isSome, h.acc_not_mem⟩
  · have hnone : [x].filter (fun x => x.key = k) = [] := by simp [hk]
    rw [List.filter_append, hnone, List.append_nil, h.run]
  · rw [h.refs_eq, Unary.sent_concat_of_ne hk]

end Collect
end Bytewax
