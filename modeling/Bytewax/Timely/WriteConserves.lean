import Bytewax.Timely.PartdWrite
import Bytewax.Timely.Stamps
import Mathlib.Logic.Function.Basic

/-!
# Bytewax.Timely.WriteConserves — `partd_write` neither loses nor repeats an item

Whatever arrives, and in whatever order: as long as the operator does not panic, what it has written
to a partition in an epoch and what it still has in its buffer for it is what has arrived for it.
-/

namespace Bytewax

open Std (TreeMap TreeSet)

namespace EpochOp

variable {P K V W : Type} [LinearOrder P] {writers : Writers P V W} {localParts : List P}
  {thisWorker e : Nat} {p : P}

/-- What is buffered for a partition in an epoch. -/
def pendingIn (bufs : EpochBufs (TreeMap P (List V)) (P × Nat)) (e : Nat) (p : P) : List V :=
  (bufs.itemsInbuf.getD e ∅).getD p []

/-- What has been written and what is buffered is what has arrived. -/
def Conserves (as : List (EpochActivation (Nat × P × K × V) (P × Nat)))
    (bufs : EpochBufs (TreeMap P (List V)) (P × Nat)) (o : List (Nat × WriteCall P V)) : Prop :=
  ∀ e p, writtenTo e p o ++ pendingIn bufs e p = valuesFor p (itemsAt as e)

/-! ### Buffers -/

theorem getD_foldl_pushRouted (items : List (Nat × P × K × V)) (buf : TreeMap P (List V)) (p : P) :
    (items.foldl pushRouted buf).getD p [] = buf.getD p [] ++ valuesFor p items := by
  induction items generalizing buf with
  | nil => exact (List.append_nil _).symm
  | cons item items ih =>
    obtain ⟨worker, part, key, value⟩ := item
    rw [List.foldl_cons, ih, pushRouted, TreeMap.getD_insert]
    show _ = _ ++ ((if part = p then [value] else []) ++ valuesFor p items)
    by_cases hp : part = p
    · subst hp
      simp
    · simp [hp]

/-- A batch arrives. -/
theorem pendingIn_receiveItems
    {s s' : EpochState (TreeMap P (List V)) (P × Nat) (TreeMap P W)}
    {incoming : Nat × List (Nat × P × K × V)}
    (h : (partdWrite writers localParts thisWorker).receiveItems s incoming = some s')
    (e : Nat) (p : P) : pendingIn s'.bufs e p =
      pendingIn s.bufs e p ++ valuesFor p (Keyed.valuesOf e [incoming]).flatten := by
  obtain ⟨-, -, hbuf, -⟩ := receiveItems_spec h
  rw [pendingIn, hbuf, TreeMap.getD_insert, Keyed.valuesOf_cons, Keyed.valuesOf_nil]
  by_cases he : incoming.1 = e
  · subst he
    rw [if_pos (by simp), if_pos rfl, List.flatten_cons, List.flatten_nil, List.append_nil]
    show (incoming.2.foldl pushRouted (s.bufs.itemsInbuf[incoming.1]?.getD ∅)).getD p [] = _
    rw [getD_foldl_pushRouted, pendingIn, TreeMap.getD_eq_getD_getElem? (a := incoming.1)]
  · rw [if_neg (by simpa using he), if_neg he]
    exact (List.append_nil _).symm

theorem pendingIn_foldlM {s s' : EpochState (TreeMap P (List V)) (P × Nat) (TreeMap P W)}
    {items : List (Nat × List (Nat × P × K × V))}
    (h : items.foldlM (partdWrite writers localParts thisWorker).receiveItems s = some s')
    (e : Nat) (p : P) : pendingIn s'.bufs e p =
      pendingIn s.bufs e p ++ valuesFor p (Keyed.valuesOf e items).flatten := by
  induction items generalizing s with
  | nil =>
    cases h
    exact (List.append_nil _).symm
  | cons incoming items ih =>
    rw [List.foldlM_cons] at h
    obtain ⟨s₁, h₁, h⟩ := Option.bind_eq_some_iff.mp h
    have hsplit : Keyed.valuesOf e (incoming :: items) =
        Keyed.valuesOf e [incoming] ++ Keyed.valuesOf e items := Keyed.valuesOf_append e [incoming] _
    rw [ih h, pendingIn_receiveItems h₁, hsplit, List.flatten_append, valuesFor_append,
      List.append_assoc]

/-! ### Writes -/

theorem partdWrite_stamped : (partdWrite writers localParts thisWorker :
    EpochOp (Nat × P × K × V) _ _ _ _).Stamped where
  use h x hx := by
    obtain ⟨-, rfl⟩ := run_writePart h
    obtain ⟨entry, -, rfl⟩ := List.mem_map.mp hx
    rfl
  close h x hx := by
    obtain ⟨⟨parts, calls⟩, hr, h⟩ := Option.bind_eq_some_iff.mp h
    cases h
    rcases List.mem_append.mp hx with hx | hx
    · exact (run_assignPart_writes hr x hx).1
    · rw [List.mem_singleton.mp hx]

variable {bufs bufs' : EpochBufs (TreeMap P (List V)) (P × Nat)} {d d' : TreeMap P W}
  {o o' : List (Nat × WriteCall P V)} {as : List (EpochActivation (Nat × P × K × V) (P × Nat))}

/-- What is used up is written. -/
theorem Conserves.eagerLogic (h : Conserves as bufs o)
    (hs : (partdWrite (K := K) writers localParts thisWorker).eagerLogic e (bufs, d) =
      some ((bufs', d'), o')) : Conserves as bufs' (o ++ o') := by
  intro e' p
  rw [← h e' p, writtenTo_append, List.append_assoc]
  congr 1
  unfold EpochOp.eagerLogic at hs
  split at hs
  · cases hs
    rfl
  · next buf hbuf =>
    obtain ⟨⟨d₁, o₁⟩, huse, hs⟩ := Option.bind_eq_some_iff.mp hs
    cases hs
    obtain ⟨-, rfl⟩ := run_writePart huse
    rw [writtenTo_writes, pendingIn, pendingIn, TreeMap.getD_erase]
    by_cases he : e = e'
    · subst he
      rw [TreeMap.getD_eq_getD_getElem? (a := e), hbuf]
      simp
    · simp [he]

/-- The close of an epoch writes nothing. -/
theorem Conserves.closeLogic (h : Conserves as bufs o)
    (hs : (partdWrite (K := K) writers localParts thisWorker).closeLogic e (bufs, d) =
      some ((bufs', d'), o')) : Conserves as bufs' (o ++ o') := by
  intro e' p
  have hbufs := closeLogic_itemsInbuf hs
  obtain ⟨⟨d₁, o₁⟩, hclose, hs⟩ := Option.bind_eq_some_iff.mp hs
  obtain ⟨⟨parts, calls⟩, hr, hclose⟩ := Option.bind_eq_some_iff.mp hclose
  cases hs
  cases hclose
  have hnone : writtenTo e' p (calls ++ [(e, .clock)]) = [] := by
    refine List.flatMap_eq_nil_iff.mpr fun call hcall => ?_
    have hbatch : call.2.batchFor p = [] := by
      rcases List.mem_append.mp hcall with hcall | hcall
      · exact (run_assignPart_writes hr call hcall).2.2 p
      · rw [List.mem_singleton.mp hcall]
        rfl
    rw [hbatch, ite_self]
  rw [← h e' p, writtenTo_append, hnone, List.append_nil]
  exact congrArg _ (by rw [pendingIn, pendingIn, hbufs])

/-- **One activation.** -/
theorem Conserves.activate {s s' : EpochState (TreeMap P (List V)) (P × Nat) (TreeMap P W)}
    {a : EpochActivation (Nat × P × K × V) (P × Nat)} (h : Conserves as s.bufs o)
    (hs : (partdWrite writers localParts thisWorker).activate s a = some (s', o')) :
    Conserves (as ++ [a]) s'.bufs (o ++ o') := by
  obtain ⟨s₁, hitems, hs⟩ := Option.bind_eq_some_iff.mp hs
  obtain ⟨s₂, hupdates, hs⟩ := Option.bind_eq_some_iff.mp hs
  obtain ⟨⟨⟨bufs, ncater⟩, out⟩, hfor, hs⟩ := Option.bind_eq_some_iff.mp hs
  cases hs
  refine EagerNotificator.forEach_induct (P := Conserves (as ++ [a]))
    (fun e env d env' d' o o' h hs => h.eagerLogic hs)
    (fun e env d env' d' o o' h hs => h.closeLogic hs) hfor fun e p => ?_
  have hsame : s₂.bufs.itemsInbuf = s₁.bufs.itemsInbuf :=
    Runs.foldlM_frame (fun s => s.bufs.itemsInbuf) (fun s m s' hs => (receiveUpdates_spec hs).2.1)
      hupdates
  rw [pendingIn, hsame, ← pendingIn, pendingIn_foldlM hitems, ← List.append_assoc, h e p,
    itemsAt_append, valuesFor_append, itemsAt_singleton]

/-! ### The writers of all workers -/

/-- The values that the call writes. -/
def batchOf (call : Nat × WriteCall P V) : List V :=
  match call.2 with
  | .write _ batch => batch
  | .built _ | .dropped _ | .clock => []

omit [LinearOrder P] in
theorem mem_batchOf {call : Nat × WriteCall P V} {v : V} (h : v ∈ batchOf call) :
    ∃ part batch, call.2 = .write part batch ∧ v ∈ batch := by
  unfold batchOf at h
  split at h
  · next part batch heq => exact ⟨part, batch, heq, h⟩
  · cases h
  · cases h
  · cases h

theorem mem_batchOf_of_batchFor {call : Nat × WriteCall P V} {p : P} {v : V}
    (h : v ∈ call.2.batchFor p) : v ∈ batchOf call := by
  unfold WriteCall.batchFor at h
  split at h
  · next part batch heq =>
    split at h
    · rw [batchOf, heq]
      exact h
    · cases h
  · cases h
  · cases h
  · cases h

/-- The operator on each worker, after it has been activated `acts` and made `calls`. -/
structure OnWorkers (acts : Nat → List (EpochActivation (Nat × P × K × V) (P × Nat)))
    (s : Nat → EpochState (TreeMap P (List V)) (P × Nat) (TreeMap P W))
    (calls : Nat → List (Nat × WriteCall P V)) : Prop where
  queued : ∀ w, Queued (s w)
  conserves : ∀ w, Conserves (acts w) (s w).bufs (calls w)
  before : ∀ w, ∀ call ∈ calls w, ∀ cap ∈ held (s w), call.1 ≤ cap

variable {acts : Nat → List (EpochActivation (Nat × P × K × V) (P × Nat))}
  {s : Nat → EpochState (TreeMap P (List V)) (P × Nat) (TreeMap P W)}
  {calls : Nat → List (Nat × WriteCall P V)}

theorem OnWorkers.start (writers : Writers P V W) (localParts : Nat → List P) :
    OnWorkers (K := K) (fun _ => [])
      (fun w => (partdWrite (K := K) writers (localParts w) w).start) (fun _ => []) where
  queued w := .start
  conserves w e p := by simp [pendingIn, EpochOp.start, itemsAt, valuesFor, writtenTo]
  before w call hcall := by cases hcall

/-- **One activation on one worker**: what it puts out is in the order of epochs, and none of it is
of an epoch before the capability that the worker holds. -/
theorem OnWorkers.activate (h : OnWorkers acts s calls) {w : Nat}
    {a : EpochActivation (Nat × P × K × V) (P × Nat)}
    {s' : EpochState (TreeMap P (List V)) (P × Nat) (TreeMap P W)}
    (hs : (partdWrite writers localParts w).activate (s w) a = some (s', o)) :
    OnWorkers (Function.update acts w (acts w ++ [a])) (Function.update s w s')
        (Function.update calls w (calls w ++ o)) ∧
      (∀ call ∈ o, (held (s w)).Admits call.1) ∧ (o.map Prod.fst).Pairwise (· ≤ ·) ∧
      ∀ v, (held (s v)).Le (held (Function.update s w s' v)) := by
  obtain ⟨hqueued, hle, hadmits, hbefore, hordered⟩ := partdWrite_stamped.activate (h.queued w) hs
  refine ⟨⟨fun v => ?_, fun v => ?_, fun v call hcall cap hcap => ?_⟩, hadmits, hordered,
    fun v => ?_⟩
  · by_cases hv : v = w
    · subst hv
      rwa [Function.update_self]
    · rw [Function.update_of_ne hv]
      exact h.queued v
  · by_cases hv : v = w
    · subst hv
      rw [Function.update_self, Function.update_self, Function.update_self]
      exact (h.conserves v).activate hs
    · rw [Function.update_of_ne hv, Function.update_of_ne hv, Function.update_of_ne hv]
      exact h.conserves v
  · by_cases hv : v = w
    · subst hv
      rw [Function.update_self] at hcall hcap
      rcases List.mem_append.mp hcall with hcall | hcall
      · obtain ⟨cap₀, hcap₀, hle₀⟩ := hle cap hcap
        exact Nat.le_trans (h.before v call hcall cap₀ hcap₀) hle₀
      · exact hbefore call hcall cap hcap
    · rw [Function.update_of_ne hv] at hcall hcap
      exact h.before v call hcall cap hcap
  · by_cases hv : v = w
    · subst hv
      rwa [Function.update_self]
    · rw [Function.update_of_ne hv]
      exact fun t ht => ⟨t, ht, Nat.le_refl t⟩

/-- What is written has arrived, in the epoch it is written in. -/
theorem OnWorkers.arrived (h : OnWorkers acts s calls) {w : Nat} {call : Nat × WriteCall P V}
    (hcall : call ∈ calls w) {v : V} (hv : v ∈ batchOf call) :
    ∃ item ∈ itemsAt (acts w) call.1, item.2.2.2 = v := by
  obtain ⟨part, batch, heq, hv⟩ := mem_batchOf hv
  have hwritten : v ∈ writtenTo call.1 part (calls w) := by
    refine List.mem_flatMap.mpr ⟨call, hcall, ?_⟩
    rw [if_pos rfl, heq]
    simpa [WriteCall.batchFor] using hv
  have hvalues : v ∈ valuesFor part (itemsAt (acts w) call.1) := by
    rw [← h.conserves w call.1 part]
    exact List.mem_append_left _ hwritten
  obtain ⟨item, hitem, -, hval⟩ := mem_valuesFor.mp hvalues
  exact ⟨item, hitem, hval⟩

/-- What has arrived in an epoch that is no longer held is written. -/
theorem OnWorkers.written (h : OnWorkers acts s calls) {w e : Nat} (p : P)
    (hpassed : ∀ cap ∈ held (s w), e < cap) :
    writtenTo e p (calls w) = valuesFor p (itemsAt (acts w) e) := by
  have hnone : (s w).bufs.itemsInbuf[e]? = none := by
    cases hheld : held (s w) with
    | none => exact (h.queued w).ended hheld e
    | some cap =>
      rw [← Option.not_isSome_iff_eq_none]
      intro hin
      have hle := (h.queued w).queue e ((h.queued w).items e hin) cap hheld
      exact Nat.not_le_of_lt (hpassed cap hheld) hle
  have hpending : pendingIn (s w).bufs e p = [] := by
    rw [pendingIn, TreeMap.getD_eq_getD_getElem? (a := e), hnone]
    simp
  rw [← h.conserves w e p, hpending, List.append_nil]

end EpochOp
end Bytewax
