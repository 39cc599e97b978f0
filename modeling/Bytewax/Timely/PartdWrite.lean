import Bytewax.Operators.OutputSpec
import Bytewax.Timely.Parts

/-!
# Bytewax.Timely.PartdWrite — the `partd_write` operator

The operator behind `partition` and `route`, which writes the items that are routed to a worker.
The updates are the primary assignments; a partition has a writer on the worker it is assigned to.
A clock tick tells that the items of an epoch have been written.
-/

namespace Bytewax

open Std (TreeMap TreeSet)

/-- What builds the writers of partitions, and their method. -/
structure Writers (P V W : Type) where
  builder : P → W
  writeBatch : W → List V → W

/-- What the operator does: it builds, writes to or drops a writer, or sends a clock tick. -/
inductive WriteCall (P V : Type)
  | built (part : P)
  | write (part : P) (batch : List V)
  | dropped (part : P)
  | clock
  deriving DecidableEq, Repr

/-- The values that the call writes to a partition. -/
def WriteCall.batchFor {P V : Type} [DecidableEq P] (p : P) : WriteCall P V → List V
  | .write part batch => if part = p then batch else []
  | .built _ | .dropped _ | .clock => []

namespace EpochOp

variable {P K V W : Type} [LinearOrder P]

/-- Buffer a routed item, by its partition. -/
def pushRouted (partToItems : TreeMap P (List V)) (item : Nat × P × K × V) :
    TreeMap P (List V) :=
  let (_worker, part, _key, value) := item
  partToItems.insert part (partToItems.getD part [] ++ [value])

/-- The loop over the partitions with items; it panics for one without a writer, or without labels
for the metrics. -/
def writePart (writers : Writers P V W) (localParts : List P) (epoch : Nat) (parts : TreeMap P W)
    (entry : P × List V) : Option (TreeMap P W × List (Nat × WriteCall P V)) := do
  let (partKey, items) := entry
  let part ← parts[partKey]?
  if localParts.contains partKey then
    return (parts.insert partKey (writers.writeBatch part items), [(epoch, .write partKey items)])
  else
    none

/-- `partd_write`, behind its routing. -/
def partdWrite (writers : Writers P V W) (localParts : List P) (thisWorker : Nat) :
    EpochOp (Nat × P × K × V) (TreeMap P (List V)) (P × Nat) (TreeMap P W)
      (Nat × WriteCall P V) where
  init := ∅
  push buf incoming := incoming.foldl pushRouted (buf.getD ∅)
  use epoch parts partToItems :=
    Runs.run (writePart writers localParts epoch) parts partToItems.toList
  close epoch parts primaries := do
    let (parts, calls) ← Runs.run
      (assignPart writers.builder .built .dropped thisWorker epoch) parts primaries
    return (parts, calls ++ [(epoch, .clock)])

/-! ### What an epoch writes -/

/-- The values for a partition. -/
def valuesFor (p : P) (items : List (Nat × P × K × V)) : List V :=
  items.flatMap fun item => if item.2.1 = p then [item.2.2.2] else []

/-- The values written to a partition in an epoch, in order. -/
def writtenTo (e : Nat) (p : P) (calls : List (Nat × WriteCall P V)) : List V :=
  calls.flatMap fun call => if call.1 = e then call.2.batchFor p else []

variable {writers : Writers P V W} {localParts : List P} {thisWorker e b : Nat} {p : P}
  {o o' : List (Nat × WriteCall P V)}

@[simp] theorem valuesFor_append {xs ys : List (Nat × P × K × V)} :
    valuesFor p (xs ++ ys) = valuesFor p xs ++ valuesFor p ys := List.flatMap_append

@[simp] theorem writtenTo_append :
    writtenTo e p (o ++ o') = writtenTo e p o ++ writtenTo e p o' := List.flatMap_append

theorem mem_valuesFor {v : V} {xs : List (Nat × P × K × V)} :
    v ∈ valuesFor p xs ↔ ∃ item ∈ xs, item.2.1 = p ∧ item.2.2.2 = v := by
  simp only [valuesFor, List.mem_flatMap]
  refine exists_congr fun item => and_congr_right fun _ => ?_
  split
  · next h => simp [h, eq_comm]
  · next h => simp [h]

/-- The buffer holds the values of each partition. -/
def ByPart (xs : List (Nat × P × K × V)) (buf : TreeMap P (List V)) : Prop :=
  ∀ p, buf[p]? = if valuesFor p xs = [] then none else some (valuesFor p xs)

theorem byPart_push {xs : List (Nat × P × K × V)} {buf : TreeMap P (List V)} (h : ByPart xs buf)
    (ys : List (Nat × P × K × V)) : ByPart (xs ++ ys) (ys.foldl pushRouted buf) := by
  induction ys generalizing xs buf with
  | nil => simpa using h
  | cons item ys ih =>
    have hone : ByPart (xs ++ [item]) (pushRouted buf item) := by
      obtain ⟨worker, part, key, value⟩ := item
      intro p
      have hold : buf.getD part [] = valuesFor part xs := by
        rw [TreeMap.getD_eq_getD_getElem?, h part]
        split
        · next hnil => rw [hnil]; rfl
        · rfl
      rw [pushRouted, TreeMap.getElem?_insert, valuesFor_append, hold]
      by_cases hp : part = p
      · subst hp
        simp [valuesFor]
      · have hnone : valuesFor p [(worker, part, key, value)] = [] := by
          rw [valuesFor, List.flatMap_singleton]
          exact if_neg hp
        rw [hnone, List.append_nil, if_neg (by simpa using hp)]
        exact h p
    have hrest := ih hone
    rwa [List.append_assoc] at hrest

theorem partdWrite_buffers : (partdWrite writers localParts thisWorker :
    EpochOp (Nat × P × K × V) _ _ _ _).Buffers ByPart where
  push_none ys := by
    have hempty : ByPart ([] : List (Nat × P × K × V)) ∅ := fun p => by simp [valuesFor]
    exact byPart_push hempty ys
  push_some ys hbuf := byPart_push hbuf ys

/-! ### Writes -/

variable {parts parts' : TreeMap P W} {xs : List (Nat × P × K × V)} {buf : TreeMap P (List V)}

/-- The loop over the partitions writes to each of them, and keeps the writers. -/
theorem run_writePart {entries : List (P × List V)}
    (h : Runs.run (writePart writers localParts e) parts entries = some (parts', o)) :
    (∀ p, p ∈ parts' ↔ p ∈ parts) ∧
      o = entries.map fun entry => (e, .write entry.1 entry.2) := by
  induction entries generalizing parts o with
  | nil =>
    cases h
    exact ⟨fun p => Iff.rfl, rfl⟩
  | cons entry entries ih =>
    obtain ⟨parts₁, o₁, o₂, hs, hr, rfl⟩ := Runs.exists_of_run_cons h
    obtain ⟨part, hpart, hs⟩ := Option.bind_eq_some_iff.mp hs
    obtain ⟨-, hs⟩ := Option.ite_none_right_eq_some.mp hs
    cases hs
    obtain ⟨hkeys, rfl⟩ := ih hr
    refine ⟨fun p => ?_, rfl⟩
    have hin : entry.1 ∈ parts := TreeMap.isSome_getElem?_iff_mem.mp (by rw [hpart]; rfl)
    rw [hkeys, TreeMap.mem_insert, Std.LawfulEqCmp.compare_eq_iff_eq]
    refine or_iff_right_of_imp ?_
    rintro rfl
    exact hin

theorem run_writePart_isSome {entries : List (P × List V)}
    (h : ∀ entry ∈ entries, entry.1 ∈ parts ∧ entry.1 ∈ localParts) :
    (Runs.run (writePart writers localParts e) parts entries).isSome := by
  induction entries generalizing parts with
  | nil => rfl
  | cons entry entries ih =>
    obtain ⟨hin, hlocal⟩ := h entry List.mem_cons_self
    obtain ⟨part, hpart⟩ := Option.isSome_iff_exists.mp (TreeMap.isSome_getElem?_iff_mem.mpr hin)
    have hs : writePart writers localParts e parts entry = some
        (parts.insert entry.1 (writers.writeBatch part entry.2), [(e, .write entry.1 entry.2)]) := by
      show Option.bind parts[entry.1]? _ = _
      rw [hpart, Option.bind_some]
      exact if_pos (List.contains_iff_mem.mpr hlocal)
    have hrest : ∀ entry' ∈ entries,
        entry'.1 ∈ parts.insert entry.1 (writers.writeBatch part entry.2) ∧
          entry'.1 ∈ localParts := by
      intro entry' hmem
      obtain ⟨hin', hlocal'⟩ := h entry' (List.mem_cons_of_mem _ hmem)
      exact ⟨TreeMap.mem_insert.mpr (.inr hin'), hlocal'⟩
    obtain ⟨⟨parts', o⟩, hr⟩ := Option.isSome_iff_exists.mp (ih hrest)
    rw [Runs.run_cons hs hr]
    rfl

/-- A partition is in the buffer if there are values for it. -/
theorem ByPart.mem_iff (h : ByPart xs buf) {p : P} : p ∈ buf ↔ ∃ item ∈ xs, item.2.1 = p := by
  rw [← TreeMap.isSome_getElem?_iff_mem, h p]
  have hnil : valuesFor p xs = [] ↔ ¬ ∃ item ∈ xs, item.2.1 = p := by
    rw [List.eq_nil_iff_forall_not_mem]
    refine ⟨fun hall ⟨item, hin, hp⟩ => hall item.2.2.2 (mem_valuesFor.mpr ⟨item, hin, hp, rfl⟩),
      fun hnone v hv => ?_⟩
    obtain ⟨item, hin, hp, -⟩ := mem_valuesFor.mp hv
    exact hnone ⟨item, hin, hp⟩
  split
  · next hvs => simpa using hnil.mp hvs
  · next hvs => simpa using not_not.mp (mt hnil.mpr hvs)

/-- Writing a buffer writes to each partition what is buffered for it. -/
theorem writtenTo_writes (buf : TreeMap P (List V)) (e e' : Nat) (p : P) :
    writtenTo e' p (buf.toList.map fun entry => (e, WriteCall.write entry.1 entry.2)) =
      if e = e' then buf.getD p [] else [] := by
  by_cases he : e = e'
  · subst he
    have hentries : ∀ entries : List (P × List V),
        writtenTo e p (entries.map fun entry => (e, WriteCall.write entry.1 entry.2)) =
          (Keyed.valuesOf p entries).flatten := by
      intro entries
      induction entries with
      | nil => rfl
      | cons entry entries ih =>
        rw [List.map_cons, writtenTo, List.flatMap_cons, ← writtenTo, ih, if_pos rfl,
          Keyed.valuesOf_cons]
        show (if entry.1 = p then entry.2 else []) ++ _ = _
        split
        · rfl
        · rfl
    rw [hentries, PartitionedOutput.valuesOf_toList, TreeMap.getD_eq_getD_getElem?, if_pos rfl]
    cases buf[p]? with
    | none => rfl
    | some vs => simp
  · rw [if_neg he]
    refine List.flatMap_eq_nil_iff.mpr fun call hcall => if_neg ?_
    obtain ⟨entry, -, rfl⟩ := List.mem_map.mp hcall
    exact he

/-- Writing the buffer writes to each partition its values. -/
theorem ByPart.written (h : ByPart xs buf) (e : Nat) (p : P) :
    writtenTo e p (buf.toList.map fun entry => (e, WriteCall.write entry.1 entry.2)) =
      valuesFor p xs := by
  rw [writtenTo_writes, if_pos rfl, TreeMap.getD_eq_getD_getElem?, h p]
  split
  · next hnil => exact hnil.symm
  · rfl

/-- **The use of a batch** writes to each partition its values. -/
theorem partdWrite_use {d d' : TreeMap P W} (hbuf : ByPart xs buf)
    (h : (partdWrite writers localParts thisWorker : EpochOp (Nat × P × K × V) _ _ _ _).use e d buf
      = some (d', o)) :
    (∀ p, p ∈ d' ↔ p ∈ d) ∧ (∀ c ∈ o, c.1 = e ∧ c.2 ≠ .clock) ∧
      ∀ p, writtenTo e p o = valuesFor p xs := by
  obtain ⟨hkeys, rfl⟩ := run_writePart h
  refine ⟨hkeys, fun c hc => ?_, hbuf.written e⟩
  obtain ⟨entry, -, rfl⟩ := List.mem_map.mp hc
  exact ⟨rfl, by simp⟩

/-- However the items of an epoch are batched, each partition is written its values. -/
theorem partdWrite_uses {d₀ d : TreeMap P W}
    (h : (partdWrite writers localParts thisWorker : EpochOp (Nat × P × K × V) _ _ _ _).Uses ByPart
      e d₀ xs d o) :
    (∀ p, p ∈ d ↔ p ∈ d₀) ∧ (∀ c ∈ o, c.1 = e ∧ c.2 ≠ .clock) ∧
      ∀ p, writtenTo e p o = valuesFor p xs := by
  induction h with
  | nil => exact ⟨fun p => Iff.rfl, by simp, fun p => rfl⟩
  | use _ hbuf huse ih =>
    obtain ⟨hkeys, hcalls, hvalues⟩ := ih
    obtain ⟨hkeys', hcalls', hvalues'⟩ := partdWrite_use hbuf huse
    refine ⟨fun p => (hkeys' p).trans (hkeys p), fun c hc => ?_, fun p => ?_⟩
    · exact (List.mem_append.mp hc).elim (hcalls c) (hcalls' c)
    · rw [writtenTo_append, valuesFor_append, hvalues, hvalues']

/-- The loop over the assignments writes nothing. -/
theorem run_assignPart_writes {updates : List (P × Nat)}
    (h : Runs.run (assignPart writers.builder .built .dropped thisWorker e) parts updates =
      some (parts', o)) :
    ∀ call ∈ o, call.1 = e ∧ call.2 ≠ .clock ∧ ∀ p, call.2.batchFor p = [] := by
  intro call hcall
  obtain ⟨he, p, hbuilt | hdropped⟩ := run_assignPart_calls h call hcall
  · rw [hbuilt]
    exact ⟨he, by simp, fun p => rfl⟩
  · rw [hdropped]
    exact ⟨he, by simp, fun p => rfl⟩

/-! ### Whole epochs -/

variable {as : List (EpochActivation (Nat × P × K × V) (P × Nat))}

/-- What has been done when the items of the epochs before `b` are used and the epochs before `c`
are closed: each partition has been written its values, and the clock has ticked after the writes
of each closed epoch. -/
structure Written (as : List (EpochActivation (Nat × P × K × V) (P × Nat))) (b c : Nat)
    (o : List (Nat × WriteCall P V)) : Prop where
  before : ∀ call ∈ o, call.1 < b
  written : ∀ e < b, ∀ p, writtenTo e p o = valuesFor p (itemsAt as e)
  ordered : o.Pairwise fun call later =>
    call.1 < later.1 ∨ call.1 = later.1 ∧ call.2 ≠ .clock
  clock : ∀ e, (e, .clock) ∈ o ↔ Active as e ∧ e < c

theorem Written.zero : Written as 0 0 ([] : List (Nat × WriteCall P V)) where
  before call hcall := by cases hcall
  written e he := absurd he (Nat.not_lt_zero e)
  ordered := .nil
  clock e := by simp

theorem Written.writtenTo_eq_nil {c : Nat} (h : Written as b c o) (he : b ≤ e) :
    writtenTo e p o = [] :=
  List.flatMap_eq_nil_iff.mpr fun call hcall =>
    if_neg (Nat.ne_of_lt (Nat.lt_of_lt_of_le (h.before call hcall) he))

/-- The calls of one more epoch, which is closed or still open. -/
theorem Written.append {c : Nat} (h : Written as b b o) (ho' : ∀ call ∈ o', call.1 = b)
    (hpairs : o'.Pairwise fun call _ => call.2 ≠ .clock)
    (hwrites : ∀ p, writtenTo b p o' = valuesFor p (itemsAt as b)) (hbc : b ≤ c) (hcb : c ≤ b + 1)
    (hclock : (b, .clock) ∈ o' ↔ Active as b ∧ b < c) : Written as (b + 1) c (o ++ o') where
  before call hcall := by
    rcases List.mem_append.mp hcall with hcall | hcall
    · exact Nat.lt_succ_of_lt (h.before call hcall)
    · exact Nat.lt_succ_of_le (Nat.le_of_eq (ho' call hcall))
  written e he p := by
    rw [writtenTo_append]
    rcases Nat.lt_succ_iff_lt_or_eq.mp he with hlt | rfl
    · have hnone : writtenTo e p o' = [] := List.flatMap_eq_nil_iff.mpr fun call hcall =>
        if_neg (by rw [ho' call hcall]; exact Nat.ne_of_gt hlt)
      rw [hnone, List.append_nil]
      exact h.written e hlt p
    · rw [h.writtenTo_eq_nil (Nat.le_refl e), List.nil_append]
      exact hwrites p
  ordered := by
    refine List.pairwise_append.mpr ⟨h.ordered, ?_, fun call hcall later hlater => .inl ?_⟩
    · refine List.Pairwise.imp_of_mem ?_ hpairs
      intro call later hcall hlater hne
      exact .inr ⟨(ho' call hcall).trans (ho' later hlater).symm, hne⟩
    · rw [ho' later hlater]
      exact h.before call hcall
  clock e := by
    rw [List.mem_append, h.clock]
    rcases Nat.lt_trichotomy e b with hlt | rfl | hgt
    · rw [or_iff_left fun hin => Nat.ne_of_lt hlt (ho' _ hin)]
      exact and_congr_right fun _ => ⟨fun _ => Nat.lt_of_lt_of_le hlt hbc, fun _ => hlt⟩
    · rw [or_iff_right fun hin => Nat.lt_irrefl _ hin.2]
      exact hclock
    · have hnew : (e, WriteCall.clock) ∉ o' := fun hin => Nat.ne_of_gt hgt (ho' _ hin)
      simp only [hnew, or_false]
      omega

/-- The writes of an epoch that is still open. -/
theorem Written.use (h : Written as b b o) (hcalls : ∀ call ∈ o', call.1 = b ∧ call.2 ≠ .clock)
    (hvalues : ∀ p, writtenTo b p o' = valuesFor p (itemsAt as b)) :
    Written as (b + 1) b (o ++ o') := by
  refine h.append (fun call hcall => (hcalls call hcall).1) ?_ hvalues (Nat.le_refl b)
    (Nat.le_succ b) ⟨fun hin => absurd rfl (hcalls _ hin).2, fun hin => absurd hin.2 (Nat.lt_irrefl b)⟩
  exact List.Pairwise.imp_of_mem (fun hcall _ _ => (hcalls _ hcall).2)
    (List.pairwise_of_forall fun _ _ => trivial)

/-- The writes of an epoch and its close. -/
theorem Written.epoch {o₁ o₂ : List (Nat × WriteCall P V)} (h : Written as b b o)
    (hactive : Active as b) (hcalls : ∀ call ∈ o₁, call.1 = b ∧ call.2 ≠ .clock)
    (hvalues : ∀ p, writtenTo b p o₁ = valuesFor p (itemsAt as b))
    (hassigns : ∀ call ∈ o₂, call.1 = b ∧ call.2 ≠ .clock ∧ ∀ p, call.2.batchFor p = []) :
    Written as (b + 1) (b + 1) (o ++ o₁ ++ (o₂ ++ [(b, .clock)])) := by
  have hnot : ∀ call ∈ o₁ ++ o₂, call.1 = b ∧ call.2 ≠ .clock := fun call hcall =>
    (List.mem_append.mp hcall).elim (hcalls call) fun hin =>
      ⟨(hassigns call hin).1, (hassigns call hin).2.1⟩
  have hsplit : o ++ o₁ ++ (o₂ ++ [(b, .clock)]) = o ++ ((o₁ ++ o₂) ++ [(b, .clock)]) := by simp
  rw [hsplit]
  refine h.append (fun call hcall => ?_) ?_ (fun p => ?_) (Nat.le_succ b) (Nat.le_refl _)
    ⟨fun _ => ⟨hactive, Nat.lt_succ_self b⟩, fun _ => by simp⟩
  · rcases List.mem_append.mp hcall with hcall | hcall
    · exact (hnot call hcall).1
    · rw [List.mem_singleton.mp hcall]
  · refine List.pairwise_append.mpr ⟨?_, List.pairwise_singleton _ _, fun call hcall _ _ => ?_⟩
    · exact List.Pairwise.imp_of_mem (fun hcall _ _ => (hnot _ hcall).2)
        (List.pairwise_of_forall fun _ _ => trivial)
    · exact (hnot call hcall).2
  · have hnone : writtenTo b p o₂ = [] := List.flatMap_eq_nil_iff.mpr fun call hcall => by
      rw [(hassigns call hcall).2.2 p, ite_self]
    have htick : writtenTo b p [((b, .clock) : Nat × WriteCall P V)] = [] := by
      simp [writtenTo, WriteCall.batchFor]
    rw [writtenTo_append, writtenTo_append, hnone, htick, List.append_nil, List.append_nil]
    exact hvalues p

/-- **Whole epochs.** -/
theorem partdWrite_trace {d : TreeMap P W} (hchanges : ∀ e, Changing (updatesBefore as e))
    (h : (partdWrite writers localParts thisWorker : EpochOp (Nat × P × K × V) _ _ _ _).Trace ByPart
      as b d o) :
    IsPrimary thisWorker (updatesBefore as b) d ∧ Written as b b o := by
  induction h with
  | start => exact ⟨.empty, .zero⟩
  | @idle e d o _ hidle ih =>
    obtain ⟨hprimary, hwritten⟩ := ih
    refine ⟨by rwa [updatesBefore_succ, updatesAt_of_not_active hidle, List.append_nil], ?_⟩
    rw [← List.append_nil o]
    refine hwritten.append (by simp) .nil (fun p => ?_) (Nat.le_succ e) (Nat.le_refl _)
      (by simpa using hidle)
    rw [itemsAt_of_not_active hidle]
    rfl
  | @epoch e d d₁ d₂ o o₁ o₂ _ hactive huses hclose ih =>
    obtain ⟨hprimary, hwritten⟩ := ih
    obtain ⟨hkeys, hcalls, hvalues⟩ := partdWrite_uses huses
    have hprimary₁ : IsPrimary thisWorker (updatesBefore as e) d₁ :=
      fun p => (hkeys p).trans (hprimary p)
    obtain ⟨parts', o', hr, hprimary'⟩ := hprimary₁.run_assignPart writers.builder
      (WriteCall.built (V := V)) .dropped e
      (by rw [← updatesBefore_succ]; exact hchanges (e + 1))
    obtain ⟨⟨parts'', calls⟩, hr', hclose⟩ := Option.bind_eq_some_iff.mp hclose
    rw [hr] at hr'
    cases hr'
    cases hclose
    exact ⟨by rwa [updatesBefore_succ], hwritten.epoch hactive hcalls hvalues (run_assignPart_writes hr)⟩

/-- **Items are written once, in the order of epochs**, however items, assignments and frontiers
arrive: if the items of an epoch are for partitions that the assignments of the epochs before give
to this worker, the operator does not panic, and writes to each partition its values of each
epoch; the clock ticks for an epoch when all of it, and of the epochs before, is written. -/
theorem partdWrite_run (writers : Writers P V W) (localParts : List P) (thisWorker : Nat)
    (has : EpochSchedule as) (hchanges : ∀ e, Changing (updatesBefore as e))
    (hitems : ∀ e, ∀ item ∈ itemsAt as e, item.2.1 ∈ localParts ∧
      lastAssigned (updatesBefore as e) item.2.1 = some thisWorker) :
    ∃ s o, Runs.run (partdWrite (K := K) writers localParts thisWorker).activate
        (partdWrite (K := K) writers localParts thisWorker).start as = some (s, o) ∧
      Written as (horizon as) (closedHorizon as) o := by
  have htotal : (partdWrite (K := K) writers localParts thisWorker).Total ByPart as := by
    refine ⟨fun {e d₀ o₀ xs d o ys buf} htrace huses _ hpre hbuf => ?_,
      fun {e d₀ o₀ d o} htrace _ huses => ?_⟩
    · obtain ⟨hprimary, -⟩ := partdWrite_trace hchanges htrace
      obtain ⟨hkeys, -⟩ := partdWrite_uses huses
      refine run_writePart_isSome fun entry hentry => ?_
      have hin : entry.1 ∈ buf := TreeMap.isSome_getElem?_iff_mem.mp (by
        rw [TreeMap.mem_toList_iff_getElem?_eq_some.mp hentry]
        rfl)
      obtain ⟨item, hitem, hp⟩ := hbuf.mem_iff.mp hin
      obtain ⟨hlocal, hlast⟩ := hitems e item (hpre.subset (List.mem_append_right _ hitem))
      rw [← hp, hkeys, hprimary]
      exact ⟨hlast, hlocal⟩
    · obtain ⟨hprimary, -⟩ := partdWrite_trace hchanges htrace
      obtain ⟨hkeys, -⟩ := partdWrite_uses huses
      have hprimary' : IsPrimary thisWorker (updatesBefore as e) d :=
        fun p => (hkeys p).trans (hprimary p)
      obtain ⟨parts', o', hr, -⟩ := hprimary'.run_assignPart writers.builder
        (WriteCall.built (V := V)) .dropped e
        (by rw [← updatesBefore_succ]; exact hchanges (e + 1))
      show (Option.bind (Runs.run _ _ _) _).isSome
      rw [hr]
      rfl
  obtain ⟨s, o, hr, hends⟩ := run_ends partdWrite_buffers htotal has
  refine ⟨s, o, hr, ?_⟩
  rcases hends with ⟨f, d₀, o₀, d, o₁, hf, htrace, huses, rfl⟩ | ⟨hf, hall⟩
  · obtain ⟨-, hwritten⟩ := partdWrite_trace hchanges htrace
    obtain ⟨-, hcalls, hvalues⟩ := partdWrite_uses huses
    rw [horizon, closedHorizon, hf]
    exact hwritten.use hcalls hvalues
  · obtain ⟨d, htrace⟩ := hall (beyond as) fun e he => not_active_beyond he
    rw [horizon, closedHorizon, hf]
    exact (partdWrite_trace hchanges htrace).2

end EpochOp
end Bytewax
