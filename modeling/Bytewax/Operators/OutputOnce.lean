import Bytewax.Operators.OutputSpec
import Mathlib.Data.Nat.Basic

/-!
# Bytewax.Operators.OutputOnce — every routed item is written once, and snapshots are consistent

The invariant of a partitioned output between its epochs: what has arrived is written or buffered,
and the epochs before `b` are closed.  It is an `EpochRule` for the two logics of the operator, so
it holds after every activation, and no activation panics.
-/

namespace Bytewax

open Std (TreeMap TreeSet)

namespace PartitionedOutput

variable {K V S P : Type} [LinearOrder K]

/-- One event may come before the other: epochs do not go back, no write follows a snapshot of its
epoch, and a partition is snapshotted once in an epoch. -/
structure MayPrecede (x y : SinkEvent K V S) : Prop where
  le : x.1 ≤ y.1
  write : ∀ k state k' batch, x.2 = .snap k state → y.2 = .write k' batch → x.1 < y.1
  snap : ∀ k state state', x.2 = .snap k state → y.2 = .snap k state' → x.1 < y.1

/-- What holds when the activations `arr` have arrived and the epochs before `b` are closed. -/
structure OutputInv (sink : FixedPartitionedSink K V S P) (thisWorker : Nat)
    (arr : List (OutputActivation K V S)) (b : Nat) (s : OutputBufs K V S × OutputParts K P)
    (o : List (SinkEvent K V S)) : Prop where
  ordered : o.Pairwise MayPrecede
  le : ∀ event ∈ o, event.1 ≤ b
  eager : ∀ event ∈ o, event.1 = b → event.2.isEager
  items : ∀ e k, writtenAt e k o ++ buffered s.1.itemsInbuf e k =
    valuesAt e k (arr.flatMap OutputActivation.items)
  closed : ∀ e < b, e ∉ s.1.itemsInbuf
  loads : ∀ e, b ≤ e → s.1.loadsInbuf.getD e [] = loadsAt e (arr.flatMap OutputActivation.loads)
  epochs : ∀ e, (e ∈ s.1.itemsInbuf ∨ ∃ k batch, (e, .write k batch) ∈ o) →
    e ∈ (arr.flatMap OutputActivation.items).map Prod.fst
  awoken : ∀ k, k ∈ s.2.awoken ↔ ∃ batch, (b, .write k batch) ∈ o
  backed : ∀ k ∈ s.2.awoken, k ∈ s.2.parts
  parts : ∀ k, partFrom sink k none o = s.2.parts[k]?
  snaps : ∀ e < b, ∀ k, (∃ state, (e, .snap k state) ∈ o) ↔ ∃ batch, (e, .write k batch) ∈ o
  states : ∀ pre e k state post, o = pre ++ (e, .snap k state) :: post →
    (partFrom sink k none pre).map sink.snapshot = some state
  loaded : ∀ e < b, ∀ k state, (thisWorker, k, .upsert state) ∈
    loadsAt e (arr.flatMap OutputActivation.loads) → (e, .built k (some state)) ∈ o
  loadedFirst : ∀ pre e k batch post, o = pre ++ (e, .write k batch) :: post →
    ∀ le state, le < e → (thisWorker, k, .upsert state) ∈
      loadsAt le (arr.flatMap OutputActivation.loads) → (le, .built k (some state)) ∈ pre

/-- The epoch still has something to do: it has items or loads, or it was written to and is open. -/
def Busy (s : OutputBufs K V S × OutputParts K P) (o : List (SinkEvent K V S)) (e : Nat) : Prop :=
  e ∈ s.1.itemsInbuf ∨ e ∈ s.1.loadsInbuf ∨
    ((∃ k batch, (e, .write k batch) ∈ o) ∧ (e, .clock) ∉ o)

namespace OutputInv

variable {sink : FixedPartitionedSink K V S P} {thisWorker b e : Nat}
  {arr : List (OutputActivation K V S)} {s s' : OutputBufs K V S × OutputParts K P}
  {o o' : List (SinkEvent K V S)}

theorem init : OutputInv sink thisWorker [] 0 (⟨∅, ∅⟩, ⟨∅, ∅⟩) [] where
  ordered := .nil
  le := by simp
  eager := by simp
  items e k := by simp [writtenAt, buffered, valuesAt]
  closed e he := absurd he (Nat.not_lt_zero e)
  loads e _ := by simp [loadsAt]
  epochs e he := by simp at he
  awoken k := by simp
  backed k hk := by simp at hk
  parts k := by simp
  snaps e he := absurd he (Nat.not_lt_zero e)
  states pre e k state post he := by simp at he
  loaded e he := absurd he (Nat.not_lt_zero e)
  loadedFirst pre e k batch post he := by simp at he

/-- Epochs in which there is nothing to do can be taken as closed. -/
theorem advance {b' : Nat} (h : OutputInv sink thisWorker arr b s o) (hb : b ≤ b')
    (hidle : ∀ e < b', ¬ Busy s o e) : OutputInv sink thisWorker arr b' s o := by
  -- an epoch that is written to is not idle before it is closed
  have hnone : ∀ e < b', b ≤ e → ∀ k batch, (e, .write k batch) ∉ o := by
    intro e he hbe k batch hmem
    obtain rfl : e = b := Nat.le_antisymm (h.le _ hmem) hbe
    refine hidle e he (.inr (.inr ⟨⟨k, batch, hmem⟩, fun hclock => ?_⟩))
    exact absurd (h.eager _ hclock rfl) nofun
  rcases Nat.eq_or_lt_of_le hb with rfl | hlt
  · exact h
  have hopen : ∀ k batch, (b', .write k batch) ∉ o :=
    fun k batch hmem => Nat.not_le_of_lt hlt (h.le _ hmem)
  exact
    { ordered := h.ordered
      le := fun event hevent => Nat.le_trans (h.le event hevent) hb
      eager := fun event hevent he =>
        absurd (h.le event hevent) (Nat.not_le_of_lt (he ▸ hlt))
      items := h.items
      closed := fun e he hmem => hidle e he (.inl hmem)
      loads := fun e he => h.loads e (Nat.le_trans hb he)
      epochs := h.epochs
      awoken := fun k => by
        rw [h.awoken]
        exact ⟨fun ⟨batch, hmem⟩ => absurd hmem (hnone b hlt (Nat.le_refl b) k batch),
          fun ⟨batch, hmem⟩ => absurd hmem (hopen k batch)⟩
      backed := h.backed
      parts := h.parts
      snaps := fun e he k => by
        rcases Nat.lt_or_ge e b with heb | heb
        · exact h.snaps e heb k
        · refine ⟨fun ⟨state, hmem⟩ => ?_, fun ⟨batch, hmem⟩ => ?_⟩
          · obtain rfl : e = b := Nat.le_antisymm (h.le _ hmem) heb
            exact absurd (h.eager _ hmem rfl) nofun
          · exact absurd hmem (hnone e he heb k batch)
      states := h.states
      loaded := fun e he k state hmem => by
        rcases Nat.lt_or_ge e b with heb | heb
        · exact h.loaded e heb k state hmem
        · have hgone : e ∉ s.1.loadsInbuf := fun hin => hidle e he (.inr (.inl hin))
          rw [← h.loads e heb, TreeMap.getD_eq_fallback hgone] at hmem
          cases hmem
      loadedFirst := h.loadedFirst }

/-- The writing of an epoch keeps the invariant. -/
theorem writes {bufs : OutputBufs K V S} {parts parts' : OutputParts K P}
    {partToItems : TreeMap K (List (K × V))} (h : OutputInv sink thisWorker arr e (bufs, parts) o)
    (hitems : bufs.itemsInbuf[e]? = some partToItems)
    (hw : Writes sink e partToItems.toList parts parts' o') :
    OutputInv sink thisWorker arr e
      ({ bufs with itemsInbuf := bufs.itemsInbuf.erase e }, parts') (o ++ o') := by
  have hold : ∀ event ∈ o, event.2.isEager = false → event.1 < e := fun event hevent hnot =>
    Nat.lt_of_le_of_ne (h.le event hevent) fun he => by
      rw [h.eager event hevent he] at hnot
      cases hnot
  have hnew : ∀ event ∈ o', event.2.isEager = true := fun event hevent => (hw.eager event hevent).2
  have hnosnap : ∀ event ∈ o', ∀ k state, event.2 ≠ .snap k state := fun event hevent k state he => by
    have heager := hnew event hevent
    rw [he] at heager
    cases heager
  exact
    { ordered := by
        refine List.pairwise_append.mpr ⟨h.ordered, ?_, ?_⟩
        · refine List.pairwise_of_forall_mem_list fun x hx y hy => ⟨?_, ?_, ?_⟩
          · exact Nat.le_of_eq ((hw.eager x hx).1.trans (hw.eager y hy).1.symm)
          · intro k state k' batch hsnap
            exact absurd hsnap (hnosnap x hx k state)
          · intro k state state' hsnap
            exact absurd hsnap (hnosnap x hx k state)
        · intro x hx y hy
          have hy : y.1 = e := (hw.eager y hy).1
          refine ⟨hy ▸ h.le x hx, ?_, ?_⟩
          · intro k state k' batch hsnap _
            exact hy ▸ hold x hx (by rw [hsnap]; rfl)
          · intro k state state' hsnap _
            exact hy ▸ hold x hx (by rw [hsnap]; rfl)
      le := fun event hevent => by
        rcases List.mem_append.mp hevent with hevent | hevent
        · exact h.le event hevent
        · exact Nat.le_of_eq (hw.eager event hevent).1
      eager := fun event hevent he => by
        rcases List.mem_append.mp hevent with hevent | hevent
        · exact h.eager event hevent he
        · exact hnew event hevent
      items := fun e' k => by
        have hall := h.items e' k
        rw [writtenAt_append]
        by_cases he : e' = e
        · subst he
          have hgetD : bufs.itemsInbuf.getD e' ∅ = partToItems := by
            rw [TreeMap.getD_eq_getD_getElem?, hitems]
            rfl
          have hvalues : writtenAt e' k o' = buffered bufs.itemsInbuf e' k := by
            rw [hw.values, valuesOf_toList, buffered, hgetD, TreeMap.getD_eq_getD_getElem?]
            cases partToItems[k]? <;> simp
          have hgone : buffered (bufs.itemsInbuf.erase e') e' k = [] := by
            simp [buffered]
          rw [hvalues, hgone, List.append_nil]
          exact hall
        · have hsame : buffered (bufs.itemsInbuf.erase e) e' k =
              buffered bufs.itemsInbuf e' k := by
            simp [buffered, TreeMap.getD_erase, Ne.symm he]
          rw [writtenAt_of_ne (fun event hevent => (hw.eager event hevent).1) he, hsame,
            List.append_nil]
          exact hall
      closed := fun e' he' hmem => h.closed e' he' (TreeMap.mem_of_mem_erase hmem)
      loads := h.loads
      epochs := fun e' he' => by
        rcases he' with hmem | ⟨k, batch, hmem⟩
        · exact h.epochs e' (.inl (TreeMap.mem_of_mem_erase hmem))
        · rcases List.mem_append.mp hmem with hmem | hmem
          · exact h.epochs e' (.inr ⟨k, batch, hmem⟩)
          · obtain rfl : e' = e := (hw.eager _ hmem).1
            refine h.epochs e' (.inl ?_)
            rw [← TreeMap.isSome_getElem?_iff_mem]
            exact Option.isSome_of_eq_some hitems
      awoken := fun k => by
        show k ∈ parts'.awoken ↔ _
        rw [hw.awoken]
        simp only [List.mem_append, exists_or]
        exact or_congr_left (h.awoken k)
      backed := fun k hk => by
        rw [hw.holds]
        exact ((hw.awoken k).mp hk).imp_left (h.backed k)
      parts := fun k => by
        rw [partFrom_append, h.parts]
        exact hw.parts k
      snaps := fun e' he' k => by
        have hnot : ∀ call : SinkCall K V S, (e', call) ∉ o' := fun call hmem =>
          absurd (hw.eager _ hmem).1 (Nat.ne_of_lt he')
        simp only [List.mem_append, hnot, or_false]
        exact h.snaps e' he' k
      states := fun pre e' k state post he' => by
        rcases Runs.split_append he' with ⟨pre', -, ho'⟩ | ⟨post', -, ho⟩
        · exact absurd rfl (hnosnap (e', .snap k state) (by simp [ho']) k state)
        · exact h.states pre e' k state post' ho
      loaded := fun e' he' k state hmem => List.mem_append_left _ (h.loaded e' he' k state hmem)
      loadedFirst := fun pre e' k batch post he' le state hle hmem => by
        rcases Runs.split_append he' with ⟨pre', rfl, ho'⟩ | ⟨post', -, ho⟩
        · obtain rfl : e' = e := (hw.eager (e', .write k batch) (by simp [ho'])).1
          exact List.mem_append_left _ (h.loaded le hle k state hmem)
        · exact h.loadedFirst pre e' k batch post' ho le state hle hmem }

/-- **The eager logic** keeps the invariant, and leaves no items in its epoch. -/
theorem eager_spec (h : OutputInv sink thisWorker arr e s o) :
    ∃ s' o', eagerLogic sink e s = some (s', o') ∧
      OutputInv sink thisWorker arr e s' (o ++ o') ∧ e ∉ s'.1.itemsInbuf ∧
      ∀ e', Busy s' (o ++ o') e' → Busy s o e' ∨ e' = e := by
  obtain ⟨bufs, parts⟩ := s
  cases hitems : bufs.itemsInbuf[e]? with
  | none =>
    refine ⟨(bufs, parts), [], by rw [eagerLogic, hitems], ?_, ?_, ?_⟩
    · rwa [List.append_nil]
    · simpa using hitems
    · intro e' he'
      rw [List.append_nil] at he'
      exact .inl he'
  | some partToItems =>
    obtain ⟨parts', o', hr, hw⟩ := run_writeStep sink e parts partToItems.toList
    refine ⟨({ bufs with itemsInbuf := bufs.itemsInbuf.erase e }, parts'), o', ?_, ?_, ?_, ?_⟩
    · simp [eagerLogic, hitems, hr]
    · exact h.writes hitems hw
    · simp
    · rintro e' (he' | he' | ⟨⟨k, batch, hmem⟩, hclock⟩)
      · exact .inl (.inl (TreeMap.mem_of_mem_erase he'))
      · exact .inl (.inr (.inl he'))
      · rcases List.mem_append.mp hmem with hmem | hmem
        · exact .inl (.inr (.inr ⟨⟨k, batch, hmem⟩, fun hc => hclock (List.mem_append_left _ hc)⟩))
        · exact .inr (hw.eager _ hmem).1

/-- The closing of an epoch keeps the invariant. -/
theorem closes {bufs : OutputBufs K V S} {parts parts' : OutputParts K P}
    (h : OutputInv sink thisWorker arr e (bufs, parts) o) (hitems : e ∉ bufs.itemsInbuf)
    (hc : Closes sink thisWorker e (bufs.loadsInbuf.getD e []) parts parts' o') :
    OutputInv sink thisWorker arr (e + 1)
      ({ bufs with loadsInbuf := bufs.loadsInbuf.erase e }, parts') (o ++ o') where
  ordered := by
    refine List.pairwise_append.mpr ⟨h.ordered, ?_, ?_⟩
    · refine hc.once.imp_of_mem fun {x y} hx hy honce => ⟨?_, ?_, ?_⟩
      · exact Nat.le_of_eq ((hc.epoch x hx).trans (hc.epoch y hy).symm)
      · rintro k state k' batch - hwrite
        exact absurd (show (y.1, .write k' batch) ∈ o' from hwrite ▸ hy) (hc.noWrite _ _ _)
      · exact fun k state state' hx' hy' => absurd hy' (honce k state state' hx')
    · intro x hx y hy
      have hy' : y.1 = e := hc.epoch y hy
      refine ⟨hy' ▸ h.le x hx, ?_, ?_⟩
      · rintro k state k' batch - hwrite
        exact absurd (show (y.1, .write k' batch) ∈ o' from hwrite ▸ hy) (hc.noWrite _ _ _)
      · intro k state state' hsnap _
        refine hy' ▸ Nat.lt_of_le_of_ne (h.le x hx) fun he => ?_
        exact absurd (h.eager x hx he) (by rw [hsnap]; nofun)
  le event hevent := by
    rcases List.mem_append.mp hevent with hevent | hevent
    · exact Nat.le_succ_of_le (h.le event hevent)
    · exact Nat.le_succ_of_le (Nat.le_of_eq (hc.epoch event hevent))
  eager event hevent he := by
    have hle : event.1 ≤ e := by
      rcases List.mem_append.mp hevent with hevent | hevent
      · exact h.le event hevent
      · exact Nat.le_of_eq (hc.epoch event hevent)
    omega
  items e' k := by
    rw [writtenAt_append, writtenAt_eq_nil fun k batch => hc.noWrite e' k batch, List.append_nil]
    exact h.items e' k
  closed e' he' hmem := by
    rcases Nat.lt_or_ge e' e with hlt | hge
    · exact h.closed e' hlt hmem
    · obtain rfl : e' = e := by omega
      exact hitems hmem
  loads e' he' := by
    have hne : e ≠ e' := by omega
    show (bufs.loadsInbuf.erase e).getD e' [] = _
    rw [TreeMap.getD_erase, if_neg (by simpa using hne)]
    exact h.loads e' (by omega)
  epochs e' he' := by
    rcases he' with hmem | ⟨k, batch, hmem⟩
    · exact h.epochs e' (.inl hmem)
    · refine h.epochs e' (.inr ⟨k, batch, ?_⟩)
      exact (List.mem_append.mp hmem).resolve_right (hc.noWrite e' k batch)
  awoken k := by
    refine ⟨fun hk => absurd hk (hc.awoken k), fun ⟨batch, hmem⟩ => ?_⟩
    have hold := (List.mem_append.mp hmem).resolve_right (hc.noWrite (e + 1) k batch)
    exact absurd (h.le _ hold) (Nat.not_succ_le_self e)
  backed k hk := absurd hk (hc.awoken k)
  parts k := by
    rw [partFrom_append, h.parts]
    exact hc.parts k
  snaps e' he' k := by
    simp only [List.mem_append, hc.noWrite, or_false]
    rcases Nat.lt_or_ge e' e with hlt | hge
    · have hnot : ∀ state, (e', .snap k state) ∉ o' := fun state hmem =>
        absurd (hc.epoch _ hmem) (Nat.ne_of_lt hlt)
      simp only [hnot, or_false]
      exact h.snaps e' hlt k
    · obtain rfl : e' = e := by omega
      have hnot : ∀ state, (e', .snap k state) ∉ o := fun state hmem =>
        absurd (h.eager _ hmem rfl) nofun
      simp only [hnot, false_or]
      exact (hc.snaps k).trans (h.awoken k)
  states pre e' k state post he' := by
    rcases Runs.split_append he' with ⟨pre', rfl, ho'⟩ | ⟨post', -, ho⟩
    · rw [partFrom_append, h.parts]
      exact hc.states pre' e' k state post ho'
    · exact h.states pre e' k state post' ho
  loaded e' he' k state hmem := by
    rcases Nat.lt_or_ge e' e with hlt | hge
    · exact List.mem_append_left _ (h.loaded e' hlt k state hmem)
    · obtain rfl : e' = e := by omega
      rw [← h.loads e' (Nat.le_refl e')] at hmem
      exact List.mem_append_right _ (hc.loaded k state hmem)
  loadedFirst pre e' k batch post he' le state hle hmem := by
    rcases Runs.split_append he' with ⟨pre', -, ho'⟩ | ⟨post', -, ho⟩
    · exact absurd (show (e', .write k batch) ∈ o' by simp [ho']) (hc.noWrite e' k batch)
    · exact h.loadedFirst pre e' k batch post' ho le state hle hmem

/-- **The close logic** keeps the invariant and closes the epoch. -/
theorem close_spec (h : OutputInv sink thisWorker arr e s o) (hitems : e ∉ s.1.itemsInbuf) :
    ∃ s' o', closeLogic sink thisWorker e s = some (s', o') ∧
      OutputInv sink thisWorker arr (e + 1) s' (o ++ o') ∧
      ∀ e', Busy s' (o ++ o') e' → Busy s o e' ∧ e' ≠ e := by
  obtain ⟨bufs, parts⟩ := s
  obtain ⟨parts', o', hs, hc⟩ := closeLogic_spec sink thisWorker e bufs h.backed
  refine ⟨_, o', hs, h.closes hitems hc, ?_⟩
  rintro e' (he' | he' | ⟨⟨k, batch, hmem⟩, hclock⟩)
  · refine ⟨.inl he', ?_⟩
    rintro rfl
    exact hitems he'
  · refine ⟨.inr (.inl (TreeMap.mem_of_mem_erase he')), ?_⟩
    rintro rfl
    simp at he'
  · have hold := (List.mem_append.mp hmem).resolve_right (hc.noWrite e' k batch)
    refine ⟨.inr (.inr ⟨⟨k, batch, hold⟩, fun hin => hclock (List.mem_append_left _ hin)⟩), ?_⟩
    rintro rfl
    exact hclock (List.mem_append_right _ hc.clock)

/-- Messages of epochs that are not closed arrive. -/
theorem arrive {a : OutputActivation K V S} {bufs bufs' : OutputBufs K V S} {d : OutputParts K P}
    (h : OutputInv sink thisWorker arr b (bufs, d) o)
    (hitems : ∀ m ∈ a.items, b ≤ m.1) (hloads : ∀ m ∈ a.loads, b ≤ m.1)
    (hbuf : ∀ e k, buffered bufs'.itemsInbuf e k =
      buffered bufs.itemsInbuf e k ++ valuesAt e k a.items)
    (hmem : ∀ e ∈ bufs'.itemsInbuf, e ∈ bufs.itemsInbuf ∨ e ∈ a.items.map Prod.fst)
    (hload : ∀ e, bufs'.loadsInbuf.getD e [] = bufs.loadsInbuf.getD e [] ++ loadsAt e a.loads) :
    OutputInv sink thisWorker (arr ++ [a]) b (bufs', d) o := by
  have hnone : ∀ e < b, loadsAt e a.loads = [] := fun e he =>
    List.flatMap_eq_nil_iff.mpr fun m hm => if_neg fun heq =>
      Nat.not_le_of_lt (heq ▸ he) (hloads m hm)
  have hold : ∀ e < b, loadsAt e ((arr ++ [a]).flatMap OutputActivation.loads) =
      loadsAt e (arr.flatMap OutputActivation.loads) := fun e he => by
    rw [List.flatMap_append, List.flatMap_singleton, loadsAt, List.flatMap_append, ← loadsAt,
      ← loadsAt, hnone e he, List.append_nil]
  have hepochs : ∀ e, e ∈ (arr.flatMap OutputActivation.items).map Prod.fst →
      e ∈ ((arr ++ [a]).flatMap OutputActivation.items).map Prod.fst := fun e he => by
    rw [List.flatMap_append, List.map_append]
    exact List.mem_append_left _ he
  exact
    { ordered := h.ordered
      le := h.le
      eager := h.eager
      items := fun e k => by
        rw [List.flatMap_append, List.flatMap_singleton, valuesAt, List.flatMap_append, ← valuesAt,
          ← valuesAt, ← h.items e k, List.append_assoc]
        exact congrArg _ (hbuf e k)
      closed := fun e he hin => by
        rcases hmem e hin with hin | hin
        · exact h.closed e he hin
        · obtain ⟨m, hm, rfl⟩ := List.mem_map.mp hin
          exact Nat.not_le_of_lt he (hitems m hm)
      loads := fun e he => by
        rw [List.flatMap_append, List.flatMap_singleton, loadsAt, List.flatMap_append, ← loadsAt,
          ← loadsAt, ← h.loads e he]
        exact hload e
      epochs := fun e he => by
        rcases he with hin | hwritten
        · rcases hmem e hin with hin | hin
          · exact hepochs e (h.epochs e (.inl hin))
          · rw [List.flatMap_append, List.map_append, List.flatMap_singleton]
            exact List.mem_append_right _ hin
        · exact hepochs e (h.epochs e (.inr hwritten))
      awoken := h.awoken
      backed := h.backed
      parts := h.parts
      snaps := h.snaps
      states := h.states
      loaded := fun e he k state hin => h.loaded e he k state (hold e he ▸ hin)
      loadedFirst := fun pre e k batch post ho le state hle hin => by
        have heb : e ≤ b := h.le (e, .write k batch) (by simp [ho])
        exact h.loadedFirst pre e k batch post ho le state hle
          (hold le (Nat.lt_of_lt_of_le hle heb) ▸ hin) }

end OutputInv

/-- The two logics of the operator keep the invariant. -/
theorem epochRule (sink : FixedPartitionedSink K V S P) (thisWorker : Nat)
    (arr : List (OutputActivation K V S)) :
    EagerNotificator.EpochRule (eagerLogic sink) (closeLogic sink thisWorker)
      (OutputInv sink thisWorker arr)
      (fun e s o => OutputInv sink thisWorker arr e s o ∧ e ∉ s.1.itemsInbuf) Busy where
  advance h hb hidle := h.advance hb hidle
  eager h := by
    obtain ⟨s', o', hs, h', hitems, hbusy⟩ := h.eager_spec
    exact ⟨s', o', hs, ⟨h', hitems⟩, hbusy⟩
  reopen h := h.1
  close h := h.1.close_spec h.2

/-- What Timely guarantees of the activations: routed items reach the worker they are for, frontiers
do not go back, and what arrives is of an epoch that was still open; and the loads are of epochs
before the first items. -/
structure OutputSchedule (thisWorker : Nat) (as : List (OutputActivation K V S)) : Prop where
  worker : ∀ a ∈ as, ∀ m ∈ a.items, ∀ item ∈ m.2, item.1 = thisWorker
  frontier : as.Pairwise fun a a' => a.frontier.Le a'.frontier
  items : as.Pairwise fun a a' => ∀ m ∈ a'.items, a.frontier.Admits m.1
  loads : as.Pairwise fun a a' => ∀ m ∈ a'.loads, a.frontier.Admits m.1
  loadsFirst : ∀ l ∈ as.flatMap OutputActivation.loads, ∀ m ∈ as.flatMap OutputActivation.items,
    l.1 < m.1

/-- What holds between activations: the operator is open at the last frontier, whose items are
written, or it is past the end of the input. -/
def RunInv (sink : FixedPartitionedSink K V S P) (thisWorker : Nat)
    (arr : List (OutputActivation K V S)) (s : OutputState K V S P)
    (o : List (SinkEvent K V S)) : Prop :=
  (∃ cap d, s.ncater.capsState = some (cap, d) ∧
      (∀ a ∈ arr.getLast?, a.frontier = some cap ∧ cap ∉ s.bufs.itemsInbuf) ∧
      (arr = [] → cap = 0) ∧ OutputInv sink thisWorker arr cap (s.bufs, d) o ∧
      (∀ e, Busy (s.bufs, d) o e → e ∈ s.ncater.queue) ∧ ∀ e ∈ s.ncater.queue, cap ≤ e) ∨
    (s.ncater.capsState = none ∧ (∃ a ∈ arr.getLast?, a.frontier = none) ∧
      ∃ b d, ∀ b', b ≤ b' → OutputInv sink thisWorker arr b' (s.bufs, d) o)

section Run

variable {sink : FixedPartitionedSink K V S P} {thisWorker : Nat}
  {arr : List (OutputActivation K V S)} {a : OutputActivation K V S} {s : OutputState K V S P}
  {o : List (SinkEvent K V S)}

theorem RunInv.init : RunInv sink thisWorker [] (init : OutputState K V S P) [] :=
  .inl ⟨0, ⟨∅, ∅⟩, rfl, by simp, fun _ => rfl, .init, by simp [Busy, PartitionedOutput.init],
    by simp [PartitionedOutput.init, EagerNotificator.new]⟩

/-- **One activation.** -/
theorem RunInv.activate (h : RunInv sink thisWorker arr s o)
    (hworker : ∀ m ∈ a.items, ∀ item ∈ m.2, item.1 = thisWorker)
    (hfrontier : ∀ a' ∈ arr.getLast?, a'.frontier.Le a.frontier)
    (hitems : ∀ a' ∈ arr.getLast?, ∀ m ∈ a.items, a'.frontier.Admits m.1)
    (hloads : ∀ a' ∈ arr.getLast?, ∀ m ∈ a.loads, a'.frontier.Admits m.1) :
    ∃ s' o', activate sink thisWorker s a = some (s', o') ∧
      RunInv sink thisWorker (arr ++ [a]) s' (o ++ o') := by
  rcases h with ⟨cap, d, hcaps, hlast, hnil, hinv, hbusy, hqueue⟩ | ⟨hcaps, ⟨a', ha', heof⟩, b, d, hinv⟩
  · -- the operator is open: all that arrives is of epochs from `cap` on
    have hfrom : ∀ e, (∀ a' ∈ arr.getLast?, a'.frontier.Admits e) → cap ≤ e := by
      intro e he
      cases hl : arr.getLast? with
      | none =>
        rw [hnil (List.getLast?_eq_none_iff.mp hl)]
        exact Nat.zero_le e
      | some a' =>
        obtain ⟨t, ht, hle⟩ := he a' hl
        rw [(hlast a' hl).1] at ht
        exact Option.some.inj ht ▸ hle
    have hsome : s.ncater.capsState.isSome := by rw [hcaps]; rfl
    obtain ⟨s₁, hr₁, hl₁, hc₁, hbuf₁, hmem₁, hq₁⟩ := foldlM_receiveItems hworker (.inr hsome)
    obtain ⟨s₂, hr₂, hi₂, hc₂, hbuf₂, hmem₂, hq₂⟩ :=
      foldlM_receiveLoads a.loads (s := s₁) (.inr (hc₁ ▸ hsome))
    have hinv₂ : OutputInv sink thisWorker (arr ++ [a]) cap (s₂.bufs, d) o := by
      refine hinv.arrive (fun m hm => hfrom m.1 fun a' ha' => hitems a' ha' m hm)
        (fun m hm => hfrom m.1 fun a' ha' => hloads a' ha' m hm) ?_ ?_ ?_
      · rw [hi₂]
        exact hbuf₁
      · rw [hi₂]
        exact hmem₁
      · rw [← hl₁]
        exact hbuf₂
    have hqueue₂ : ∀ e, e ∈ s₂.ncater.queue ↔
        e ∈ s.ncater.queue ∨ e ∈ a.items.map Prod.fst ∨ e ∈ a.loads.map Prod.fst := by
      intro e
      rw [hq₂, hq₁, or_assoc]
    have hbusy₂ : ∀ e, Busy (s₂.bufs, d) o e → e ∈ s₂.ncater.queue := by
      rintro e (he | he | he)
      · refine (hqueue₂ e).mpr ((hmem₁ e (hi₂ ▸ he)).elim (fun he => ?_) fun he => ?_)
        · exact .inl (hbusy e (.inl he))
        · exact .inr (.inl he)
      · refine (hqueue₂ e).mpr ((hmem₂ e he).elim (fun he => ?_) fun he => ?_)
        · exact .inl (hbusy e (.inr (.inl (hl₁ ▸ he))))
        · exact .inr (.inr he)
      · exact (hqueue₂ e).mpr (.inl (hbusy e (.inr (.inr he))))
    have hcap₂ : ∀ e ∈ s₂.ncater.queue, cap ≤ e := by
      intro e he
      rcases (hqueue₂ e).mp he with he | he | he
      · exact hqueue e he
      · obtain ⟨m, hm, rfl⟩ := List.mem_map.mp he
        exact hfrom m.1 fun a' ha' => hitems a' ha' m hm
      · obtain ⟨m, hm, rfl⟩ := List.mem_map.mp he
        exact hfrom m.1 fun a' ha' => hloads a' ha' m hm
    have hstep : ∀ {bufs : OutputBufs K V S} {n : EagerNotificator (OutputParts K P)}
        {o' : List (SinkEvent K V S)}, EagerNotificator.forEach (eagerLogic sink)
          (closeLogic sink thisWorker) a.frontier s₂.bufs s₂.ncater = some ((bufs, n), o') →
        PartitionedOutput.activate sink thisWorker s a = some (⟨bufs, n⟩, o') := by
      intro bufs n o' he
      simp [PartitionedOutput.activate, hr₁, hr₂, he]
    have hn₂ : s₂.ncater.capsState = some (cap, d) := hc₂.trans (hc₁.trans hcaps)
    cases hf : a.frontier with
    | some f =>
      have hle : cap ≤ f := hfrom f fun a' ha' => hfrontier a' ha' f hf
      obtain ⟨env, d', queue, o', he, hI, hJ, hb', hq'⟩ :=
        EagerNotificator.forEach_some (epochRule sink thisWorker (arr ++ [a])) hn₂ hinv₂ hbusy₂
          hcap₂ hle
      refine ⟨_, o', hstep (hf ▸ he), .inl ⟨f, d', rfl, ?_, ?_, hI, hb', ?_⟩⟩
      · rw [List.getLast?_concat]
        rintro _ ⟨⟩
        refine ⟨hf, fun hin => ?_⟩
        have hmem : f ∈ s₂.ncater.queue := ((hq' f).mp (hb' f (.inl hin))).1
        exact (hJ hmem).2 hin
      · exact fun hnil => absurd hnil (List.append_ne_nil_of_right_ne_nil _ (List.cons_ne_nil _ _))
      · exact fun e he => ((hq' e).mp he).2
    | none =>
      obtain ⟨b, env, d', queue, o', he, hI, -⟩ :=
        EagerNotificator.forEach_none (epochRule sink thisWorker (arr ++ [a])) hn₂ hinv₂ hbusy₂
          hcap₂
      refine ⟨_, o', hstep (hf ▸ he), .inr ⟨rfl, ⟨a, ?_, hf⟩, b, d', hI⟩⟩
      rw [List.getLast?_concat]
      rfl
  · -- past the end of the input nothing arrives
    have hitems : a.items = [] := List.eq_nil_iff_forall_not_mem.mpr fun m hm => by
      obtain ⟨t, ht, -⟩ := hitems a' ha' m hm
      rw [heof] at ht
      cases ht
    have hloads : a.loads = [] := List.eq_nil_iff_forall_not_mem.mpr fun m hm => by
      obtain ⟨t, ht, -⟩ := hloads a' ha' m hm
      rw [heof] at ht
      cases ht
    have hf : a.frontier = none := Option.eq_none_iff_forall_not_mem.mpr fun t ht => by
      obtain ⟨t', ht', -⟩ := hfrontier a' ha' t ht
      rw [heof] at ht'
      cases ht'
    refine ⟨s, [], ?_, .inr ⟨hcaps, ⟨a, ?_, hf⟩, b, d, fun b' hb' => ?_⟩⟩
    · simp [PartitionedOutput.activate, hitems, hloads, EagerNotificator.forEach_of_none hcaps]
    · rw [List.getLast?_concat]
      rfl
    · rw [List.append_nil]
      refine (hinv b' hb').arrive (by simp [hitems]) (by simp [hloads]) ?_ ?_ ?_
      · simp [hitems, valuesAt]
      · exact fun e he => .inl he
      · simp [hloads, loadsAt]

omit [LinearOrder K] in
theorem OutputSchedule.of_append {as as' : List (OutputActivation K V S)}
    (h : OutputSchedule thisWorker (as ++ as')) : OutputSchedule thisWorker as where
  worker a ha := h.worker a (List.mem_append_left _ ha)
  frontier := (List.pairwise_append.mp h.frontier).1
  items := (List.pairwise_append.mp h.items).1
  loads := (List.pairwise_append.mp h.loads).1
  loadsFirst l hl m hm := by
    refine h.loadsFirst l ?_ m ?_
    · rw [List.flatMap_append]
      exact List.mem_append_left _ hl
    · rw [List.flatMap_append]
      exact List.mem_append_left _ hm

/-- **A run of the operator** does not panic. -/
theorem run_activate (sink : FixedPartitionedSink K V S P) {as : List (OutputActivation K V S)}
    (has : OutputSchedule thisWorker as) :
    ∃ s o, Runs.run (PartitionedOutput.activate sink thisWorker) PartitionedOutput.init as =
      some (s, o) ∧ RunInv sink thisWorker as s o := by
  induction as using List.reverseRecOn with
  | nil => exact ⟨_, [], rfl, .init⟩
  | append_singleton as a ih =>
    obtain ⟨s, o, hr, hinv⟩ := ih has.of_append
    have hmem : a ∈ as ++ [a] := List.mem_append_right _ (List.mem_singleton_self a)
    have hlast : ∀ a' ∈ as.getLast?, a' ∈ as := fun a' ha' => List.mem_of_getLast? ha'
    obtain ⟨s', o', hs, hinv'⟩ := hinv.activate (has.worker a hmem)
      (fun a' ha' => (List.pairwise_append.mp has.frontier).2.2 a' (hlast a' ha') a (by simp))
      (fun a' ha' => (List.pairwise_append.mp has.items).2.2 a' (hlast a' ha') a (by simp))
      (fun a' ha' => (List.pairwise_append.mp has.loads).2.2 a' (hlast a' ha') a (by simp))
    refine ⟨s', o ++ o', Runs.run_append_of_eq_some hr ?_, hinv'⟩
    rw [Runs.run_singleton]
    exact hs

end Run

/-- **What the sink sees.** -/
structure WritesOnce (sink : FixedPartitionedSink K V S P) (thisWorker : Nat)
    (as : List (OutputActivation K V S)) (events : List (SinkEvent K V S)) : Prop where
  atMostOnce : ∀ e k, writtenAt e k events <+: valuesAt e k (as.flatMap OutputActivation.items)
  once : ∀ e k, (∀ a ∈ as.getLast?, ∀ f ∈ a.frontier, e ≤ f) →
    writtenAt e k events = valuesAt e k (as.flatMap OutputActivation.items)
  ordered : events.Pairwise MayPrecede
  loadedFirst : ∀ pre e k batch post, events = pre ++ (e, .write k batch) :: post →
    ∀ le state, (thisWorker, k, .upsert state) ∈
      loadsAt le (as.flatMap OutputActivation.loads) → (le, .built k (some state)) ∈ pre
  snaps : ∀ e k, (∃ state, (e, .snap k state) ∈ events) ↔
    (∃ a ∈ as.getLast?, a.frontier.IsClosed e) ∧ ∃ batch, (e, .write k batch) ∈ events
  states : ∀ pre e k state post, events = pre ++ (e, .snap k state) :: post →
    (partFrom sink k none pre).map sink.snapshot = some state

section Final

variable {sink : FixedPartitionedSink K V S P} {thisWorker b : Nat}
  {as : List (OutputActivation K V S)} {s : OutputBufs K V S × OutputParts K P}
  {o : List (SinkEvent K V S)}

/-- Where no items are buffered, what has arrived is written. -/
theorem OutputInv.writtenAt_eq (h : OutputInv sink thisWorker as b s o) {e : Nat}
    (he : e ∉ s.1.itemsInbuf) (k : K) :
    writtenAt e k o = valuesAt e k (as.flatMap OutputActivation.items) := by
  have hnone : buffered s.1.itemsInbuf e k = [] := by
    rw [buffered, TreeMap.getD_eq_fallback he]
    rfl
  rw [← h.items e k, hnone, List.append_nil]

/-- The loads are of epochs before the first items, so a partition is loaded before it is written
to. -/
theorem OutputInv.built_of_write (h : OutputInv sink thisWorker as b s o)
    (has : OutputSchedule thisWorker as) {pre post : List (SinkEvent K V S)} {e le : Nat} {k : K}
    {batch : List V} {state : S} (ho : o = pre ++ (e, .write k batch) :: post)
    (hload : (thisWorker, k, .upsert state) ∈
      loadsAt le (as.flatMap OutputActivation.loads)) : (le, .built k (some state)) ∈ pre := by
  refine h.loadedFirst pre e k batch post ho le state ?_ hload
  have hmem : e ∈ (as.flatMap OutputActivation.items).map Prod.fst :=
    h.epochs e (.inr ⟨k, batch, by simp [ho]⟩)
  obtain ⟨m, hm, rfl⟩ := List.mem_map.mp hmem
  obtain ⟨l, hl, hin⟩ := List.mem_flatMap.mp hload
  split at hin
  · rename_i hle
    exact hle ▸ has.loadsFirst l hl m hm
  · cases hin

/-- Between activations, the sink has seen every item of the epochs that were processed once. -/
theorem RunInv.writesOnce {s : OutputState K V S P} (h : RunInv sink thisWorker as s o)
    (has : OutputSchedule thisWorker as) : WritesOnce sink thisWorker as o := by
  rcases h with ⟨cap, d, -, hlast, hnil, hinv, -, -⟩ | ⟨-, ⟨a', ha', heof⟩, b, d, hinv⟩
  · refine
      { atMostOnce := fun e k => ⟨_, hinv.items e k⟩
        once := fun e k he => ?_
        ordered := hinv.ordered
        loadedFirst := fun pre e k batch post ho le state hload =>
          hinv.built_of_write has ho hload
        snaps := fun e k => ?_
        states := hinv.states }
    · refine hinv.writtenAt_eq (fun hin => ?_) k
      cases hl : as.getLast? with
      | none =>
        have hepoch := hinv.epochs e (.inl hin)
        rw [List.getLast?_eq_none_iff.mp hl] at hepoch
        cases hepoch
      | some a =>
        obtain ⟨hf, hcap⟩ := hlast a hl
        rcases Nat.eq_or_lt_of_le (he a hl cap hf) with rfl | hlt
        · exact hcap hin
        · exact hinv.closed e hlt hin
    · constructor
      · rintro ⟨state, hmem⟩
        have hlt : e < cap := Nat.lt_of_le_of_ne (hinv.le _ hmem) fun he =>
          absurd (hinv.eager _ hmem he) nofun
        refine ⟨?_, (hinv.snaps e hlt k).mp ⟨state, hmem⟩⟩
        cases hl : as.getLast? with
        | none =>
          rw [hnil (List.getLast?_eq_none_iff.mp hl)] at hlt
          exact absurd hlt (Nat.not_lt_zero e)
        | some a =>
          refine ⟨a, rfl, ?_⟩
          rw [(hlast a hl).1]
          exact Frontier.isClosed_some.mpr hlt
      · rintro ⟨⟨a, ha, hclosed⟩, hwrite⟩
        rw [(hlast a ha).1, Frontier.isClosed_some] at hclosed
        exact (hinv.snaps e hclosed k).mpr hwrite
  · refine
      { atMostOnce := fun e k => ⟨_, (hinv b (Nat.le_refl b)).items e k⟩
        once := fun e k _ => ?_
        ordered := (hinv b (Nat.le_refl b)).ordered
        loadedFirst := fun pre e k batch post ho le state hload =>
          (hinv b (Nat.le_refl b)).built_of_write has ho hload
        snaps := fun e k => ?_
        states := (hinv b (Nat.le_refl b)).states }
    · have h := hinv (max b (e + 1)) (Nat.le_max_left _ _)
      exact h.writtenAt_eq (h.closed e (Nat.lt_of_lt_of_le (Nat.lt_succ_self e)
        (Nat.le_max_right _ _))) k
    · have h := hinv (max b (e + 1)) (Nat.le_max_left _ _)
      rw [h.snaps e (Nat.lt_of_lt_of_le (Nat.lt_succ_self e) (Nat.le_max_right _ _)) k]
      refine ⟨fun hwrite => ⟨⟨a', ha', ?_⟩, hwrite⟩, fun hwrite => hwrite.2⟩
      rw [heof]
      exact Frontier.isClosed_none

end Final

end PartitionedOutput

open PartitionedOutput

/-- **Partitioned output writes each item once, in epoch order, and snapshots consistently**, for
every way in which items, loads and frontiers may arrive. -/
theorem partitionedOutput_writesOnce {K V S P : Type} [LinearOrder K]
    (sink : FixedPartitionedSink K V S P) (thisWorker : Nat)
    {as : List (OutputActivation K V S)} (has : OutputSchedule thisWorker as) :
    ∃ s events, Runs.run (activate sink thisWorker) init as = some (s, events) ∧
      WritesOnce sink thisWorker as events := by
  obtain ⟨s, events, hr, hinv⟩ := run_activate sink has
  exact ⟨s, events, hr, hinv.writesOnce has⟩

section File

/-- A partition of a file sink is the position in its file: it is truncated to where it resumes, and
every value is written with a newline. -/
def fileSink : FixedPartitionedSink Nat (List UInt8) Nat Nat where
  buildPart _ resumeState := resumeState.getD 0
  writeBatch position values :=
    values.foldl (fun position value => position + value.length + 1) position
  snapshot position := position

/-- Partition 7 resumes at offset 5, and is written to in epoch 2, twice, and in epoch 3. -/
def fileActivations : List (OutputActivation Nat (List UInt8) Nat) :=
  [{ items := [], loads := [(1, [(0, 7, .upsert 5)])], itemsFrontier := some 2,
      loadsFrontier := some 2 },
    { items := [(2, [(0, 7, 1, [97])])], loads := [], itemsFrontier := some 2,
      loadsFrontier := none },
    { items := [(3, [(0, 7, 1, [99])]), (2, [(0, 7, 1, [98])])], loads := [], itemsFrontier := none,
      loadsFrontier := none }]

theorem fileSchedule : OutputSchedule 0 fileActivations where
  worker := by decide
  frontier := by simp [fileActivations, OutputActivation.frontier, Frontier.both, Frontier.Le]
  items := by
    simp only [fileActivations, OutputActivation.frontier, Frontier.both, Frontier.Admits,
      List.pairwise_cons, List.mem_cons, List.not_mem_nil, or_false, forall_eq_or_imp, forall_eq]
    simp
  loads := by simp [fileActivations]
  loadsFirst := by decide

theorem partitionedOutput_writesOnce_file :
    ∃ s events, Runs.run (activate fileSink 0) init fileActivations = some (s, events) ∧
      WritesOnce fileSink 0 fileActivations events :=
  partitionedOutput_writesOnce fileSink 0 fileSchedule

example : (Runs.run (activate fileSink 0) init fileActivations).map Prod.snd =
    some [(1, .clock), (1, .built 7 (some 5)), (2, .write 7 [[97]]), (2, .write 7 [[98]]),
      (2, .clock), (2, .snap 7 9), (3, .write 7 [[99]]), (3, .clock), (3, .snap 7 11)] := by
  decide +kernel

end File

end Bytewax
