import Bytewax.Window.SessionValues
import Bytewax.Window.SlidingKeys

/-!
# Bytewax.Window.SlidingValues — sliding windows conserve values

An item goes into several windows, of which some may be late and some open; a window opens with
its first value, closes at any later call, and opens again when the watermark went back meanwhile.
The values folded into a window therefore come in batches (`batches`), one for each time the window
closed and the values since then.  Every batch is emitted once, and no value is lost.
-/

namespace Bytewax

open Std (TreeMap)
open WindowStatefulLogic SlidingWindower

variable {V R L C : Type}

/-! ### The batches of a window -/

/-- The window that an event folds a value into, or that the value is late for. -/
def WindowEvent.target? : WindowEvent V R → Option (Int × V)
  | .late key value => some (key, value)
  | .folded key value _ _ _ => some (key, value)
  | .closed _ _ _ => none

/-- The window and the metadata that an event emits its output with. -/
def WindowEvent.metadata? : WindowEvent V R → Option (Int × WindowMetadata)
  | .late _ _ => none
  | .folded key _ _ metadata _ => some (key, metadata)
  | .closed key metadata _ => some (key, metadata)

/-- The values folded into a window: those of each time it closed, and those since then. -/
structure Batches (V : Type) where
  emitted : List (List (V × Int))
  pending : List (V × Int)

/-- The batches of window `k` after an event. -/
def Batches.next (k : Int) (b : Batches V) : WindowEvent V R → Batches V
  | .late _ _ => b
  | .folded key value itemTime _ _ =>
    if key = k then ⟨b.emitted, b.pending ++ [(value, itemTime)]⟩ else b
  | .closed key _ _ => if key = k then ⟨b.emitted ++ [b.pending], []⟩ else b

/-- The batches of window `k`. -/
def batches (k : Int) (events : List (WindowEvent V R)) : Batches V :=
  events.foldl (Batches.next k) ⟨[], []⟩

section

variable (k : Int) (es : List (WindowEvent V R))

@[simp] theorem batches_nil : batches k ([] : List (WindowEvent V R)) = ⟨[], []⟩ := rfl

@[simp] theorem batches_concat (e : WindowEvent V R) :
    batches k (es ++ [e]) = (batches k es).next k e := by
  simp [batches]

/-- The batches are the folded values, in order. -/
theorem flatten_batches :
    (batches k es).emitted.flatten ++ (batches k es).pending = folds k es := by
  induction es using List.reverseRecOn with
  | nil => rfl
  | append_singleton es e ih =>
    rw [batches_concat, folds_append, ← ih]
    cases e with
    | late key value => exact (List.append_nil _).symm
    | folded key value itemTime metadata output =>
      by_cases hk : key = k
      · simp [Batches.next, folds, foldList, WindowEvent.fold?, Keyed.valuesOf_cons, hk]
      · simp [Batches.next, folds, foldList, WindowEvent.fold?, Keyed.valuesOf_cons, hk]
    | closed key metadata output =>
      have hfolds : folds k [(.closed key metadata output : WindowEvent V R)] = [] := rfl
      by_cases hk : key = k
      · subst hk
        simp [Batches.next, hfolds]
      · simp [Batches.next, hk, hfolds]

end

namespace SlidingWindower

variable (cfg : SlidingConfig)

/-- The open time of window `key`. -/
def openTimeOf (key : Int) : Int := cfg.alignTo + cfg.offset * asI32 key

/-- The open and the close time of window `key`. -/
def metadataOf (key : Int) : WindowMetadata := ⟨openTimeOf cfg key, closeTimeOf cfg key⟩

end SlidingWindower

/-! ### What `current_state` holds -/

/-- The open windows have the logics of their pending batches, and what the windows that closed
emitted are their batches, with their own open and close time. -/
structure Settles (cfg : SlidingConfig) (logic : WindowLogic V R L)
    (events : List (WindowEvent V R)) (cur : TreeMap Int L) : Prop where
  logic_of : ∀ k : Int, cur[k]? = if (batches k events).pending = [] then none else
    some (logic.after (batches k events).pending)
  closes_of : ∀ k, (closes events).filter (fun c => c.1 = k) =
    (batches k events).emitted.map fun part => (k, metadataOf cfg k, logic.closeOutput part)
  emitted_ne : ∀ k, [] ∉ (batches k events).emitted
  metadata_of : ∀ e ∈ events, ∀ k m, e.metadata? = some (k, m) → m = metadataOf cfg k

section

variable {cfg : SlidingConfig} {logic : WindowLogic V R L} {events : List (WindowEvent V R)}
  {cur : TreeMap Int L}

theorem Settles.nil : Settles cfg logic ([] : List (WindowEvent V R)) (∅ : TreeMap Int L) where
  logic_of k := by simp
  closes_of k := rfl
  emitted_ne k := by simp
  metadata_of e he := by cases he

theorem Settles.mem_iff (h : Settles cfg logic events cur) {k : Int} :
    k ∈ cur ↔ (batches k events).pending ≠ [] := by
  rw [TreeMap.mem_iff_isSome_getElem?, h.logic_of]
  by_cases hp : (batches k events).pending = []
  · simp [hp]
  · simp [hp]

theorem Settles.getD_eq (h : Settles cfg logic events cur) (k : Int) :
    cur.getD k logic.build = logic.after (batches k events).pending := by
  rw [TreeMap.getD_eq_getD_getElem?, h.logic_of]
  by_cases hp : (batches k events).pending = []
  · simp [hp]
  · simp [hp]

theorem metadata_concat {e : WindowEvent V R}
    (h : ∀ e ∈ events, ∀ k m, e.metadata? = some (k, m) → m = metadataOf cfg k)
    (he : ∀ k m, e.metadata? = some (k, m) → m = metadataOf cfg k) :
    ∀ e' ∈ events ++ [e], ∀ k m, e'.metadata? = some (k, m) → m = metadataOf cfg k := by
  intro e' he'
  rcases List.mem_append.mp he' with hmem | hmem
  · exact h e' hmem
  · rw [List.mem_singleton.mp hmem]
    exact he

theorem Settles.late (h : Settles cfg logic events cur) (key : Int) (value : V) :
    Settles cfg logic (events ++ [.late key value]) cur where
  logic_of k := by
    rw [batches_concat]
    exact h.logic_of k
  closes_of k := by
    rw [batches_concat, closes_append, List.filter_append, h.closes_of]
    exact List.append_nil _
  emitted_ne k := by
    rw [batches_concat]
    exact h.emitted_ne k
  metadata_of := metadata_concat h.metadata_of nofun

/-- A value is folded into a window, which is opened if it is not open. -/
theorem Settles.fold (h : Settles cfg logic events cur) (key : Int) (value : V) (itemTime : Int)
    (output : List R) :
    Settles cfg logic (events ++ [.folded key value itemTime (metadataOf cfg key) output])
      (cur.insert key (logic.withNext (cur.getD key logic.build) (some (value, itemTime))).1) where
  logic_of k := by
    rw [batches_concat, TreeMap.getElem?_insert]
    by_cases hk : key = k
    · subst hk
      simp [Batches.next, h.getD_eq, WindowLogic.after_concat]
    · simp only [Batches.next, Std.LawfulEqCmp.compare_eq_iff_eq, hk, if_false]
      exact h.logic_of k
  closes_of k := by
    have hnext : ((batches k events).next k
        (.folded key value itemTime (metadataOf cfg key) output)).emitted =
          (batches k events).emitted := by
      by_cases hk : key = k
      · simp [Batches.next, hk]
      · simp [Batches.next, hk]
    rw [batches_concat, hnext, closes_append, List.filter_append, h.closes_of]
    exact List.append_nil _
  emitted_ne k := by
    rw [batches_concat]
    by_cases hk : key = k
    · simpa [Batches.next, hk] using h.emitted_ne k
    · simpa [Batches.next, hk] using h.emitted_ne k
  metadata_of := metadata_concat h.metadata_of fun k m he => by
    obtain ⟨rfl, rfl⟩ := Prod.mk.inj (Option.some.inj he)
    rfl

/-- An open window closes. -/
theorem Settles.close (h : Settles cfg logic events cur) {key : Int} {l : L}
    (hl : cur[key]? = some l) :
    Settles cfg logic
      (events ++ [.closed key (metadataOf cfg key) (logic.withNext l none).2])
      (cur.erase key) := by
  have hpending : (batches key events).pending ≠ [] := by
    rw [← h.mem_iff, TreeMap.mem_iff_isSome_getElem?, hl]
    rfl
  have hlogic : l = logic.after (batches key events).pending := by
    have := h.logic_of key
    rw [hl, if_neg hpending] at this
    exact Option.some.inj this
  refine ⟨fun k => ?_, fun k => ?_, fun k => ?_, metadata_concat h.metadata_of fun k m he => ?_⟩
  · rw [batches_concat, TreeMap.getElem?_erase]
    by_cases hk : key = k
    · simp [Batches.next, hk]
    · simp only [Batches.next, Std.LawfulEqCmp.compare_eq_iff_eq, hk, if_false]
      exact h.logic_of k
  · rw [batches_concat, closes_append, List.filter_append, h.closes_of]
    by_cases hk : key = k
    · subst hk
      simp [Batches.next, closes, WindowEvent.close?, hlogic, WindowLogic.closeOutput]
    · simp [Batches.next, closes, WindowEvent.close?, hk]
  · rw [batches_concat]
    by_cases hk : key = k
    · subst hk
      simp only [Batches.next, if_true, List.mem_append, List.mem_singleton]
      rintro (hmem | he)
      · exact h.emitted_ne key hmem
      · exact hpending he.symm
    · simpa [Batches.next, hk] using h.emitted_ne k
  · obtain ⟨rfl, rfl⟩ := Prod.mk.inj (Option.some.inj he)
    rfl

end

/-! ### What an insertion tracks -/

namespace SlidingWindower

variable {cfg : SlidingConfig} {ct : SlidingWindower} {watermark time : Int}

/-- The windower has for each window the open and the close time that belong to its key. -/
def Stored (cfg : SlidingConfig) (ct : SlidingWindower) : Prop :=
  ∀ (k : Int) bounds, ct[k]? = some bounds → bounds = (openTimeOf cfg k, closeTimeOf cfg k)

theorem Stored.getMetadata (h : Stored cfg ct) {k : Int} (hk : k ∈ ct) :
    getMetadata ct k = some (metadataOf cfg k) := by
  rw [TreeMap.mem_iff_isSome_getElem?] at hk
  obtain ⟨bounds, hb⟩ := Option.isSome_iff_exists.mp hk
  unfold SlidingWindower.getMetadata
  rw [hb, h k bounds hb]
  rfl

/-- What an item gets from a window. -/
def resultOf (watermark : Int) (w : Int × Int × Int) : Except InsertError Int :=
  if w.2.2 < watermark then .error (.late w.1) else .ok w.1

/-- The item is late for the windows that close before the watermark, and goes into the others:
the boundaries that are tracked never differ from those of the item's windows. -/
theorem run_insertIntersecting (watermark : Int) : ∀ (ws : List (Int × Int × Int))
    {ct : SlidingWindower}, Stored cfg ct →
    (∀ w ∈ ws, w.2 = (openTimeOf cfg w.1, closeTimeOf cfg w.1)) →
    ∃ ct', Runs.run (insertIntersecting watermark) ct ws =
        some (ct', ws.map (resultOf watermark)) ∧ Stored cfg ct' ∧
      ∀ k : Int, k ∈ ct' ↔ k ∈ ct ∨ .ok k ∈ ws.map (resultOf watermark)
  | [], ct, hst, _ => ⟨ct, rfl, hst, by simp⟩
  | w :: ws, ct, hst, hws => by
    obtain ⟨key, openTime, closeTime⟩ := w
    obtain ⟨rfl, rfl⟩ : openTime = openTimeOf cfg key ∧ closeTime = closeTimeOf cfg key :=
      Prod.mk.inj (hws _ List.mem_cons_self)
    have hrest : ∀ w ∈ ws, w.2 = (openTimeOf cfg w.1, closeTimeOf cfg w.1) :=
      fun w hw => hws w (List.mem_cons_of_mem _ hw)
    by_cases hlate : closeTimeOf cfg key < watermark
    · have hres : resultOf watermark (key, openTimeOf cfg key, closeTimeOf cfg key) =
          .error (.late key) := if_pos hlate
      obtain ⟨ct', hrun, hst', hmem⟩ := run_insertIntersecting watermark ws hst hrest
      refine ⟨ct', Runs.run_cons_eq_some.mpr ⟨ct, _, _, if_pos hlate, hrun, ?_⟩, hst', fun k => ?_⟩
      · rw [List.map_cons, hres]
        rfl
      · rw [hmem k, List.map_cons, hres]
        simp
    · have hres : resultOf watermark (key, openTimeOf cfg key, closeTimeOf cfg key) = .ok key :=
        if_neg hlate
      -- the window is tracked with its boundaries, or is added with them
      obtain ⟨ct₁, hins, hst₁, hmem₁⟩ : ∃ ct₁,
          insertWindow ct key (openTimeOf cfg key) (closeTimeOf cfg key) = some ct₁ ∧
          Stored cfg ct₁ ∧ ∀ k : Int, k ∈ ct₁ ↔ k ∈ ct ∨ k = key := by
        unfold insertWindow
        cases hk : ct[key]? with
        | some bounds =>
          have hin : key ∈ ct := by
            rw [TreeMap.mem_iff_isSome_getElem?, hk]
            rfl
          refine ⟨ct, ?_, hst, fun k => ⟨.inl, fun h => h.elim id fun he => he ▸ hin⟩⟩
          rw [hst key bounds hk]
          exact if_pos ⟨rfl, rfl⟩
        | none =>
          refine ⟨_, rfl, fun k bounds hb => ?_, fun k => ?_⟩
          · rw [TreeMap.getElem?_insert] at hb
            by_cases he : key = k
            · subst he
              simp only [Std.LawfulEqCmp.compare_eq_iff_eq, if_true, Option.some.injEq] at hb
              exact hb.symm
            · simp only [Std.LawfulEqCmp.compare_eq_iff_eq, he, if_false] at hb
              exact hst k bounds hb
          · rw [TreeMap.mem_insert, Std.LawfulEqCmp.compare_eq_iff_eq, eq_comm, or_comm]
      obtain ⟨ct', hrun, hst', hmem⟩ := run_insertIntersecting watermark ws hst₁ hrest
      have hstep : insertIntersecting watermark ct
          (key, openTimeOf cfg key, closeTimeOf cfg key) = some (ct₁, [.ok key]) := by
        show (if closeTimeOf cfg key < watermark then _ else _) = _
        rw [if_neg hlate, hins]
        rfl
      refine ⟨ct', Runs.run_cons_eq_some.mpr ⟨ct₁, _, _, hstep, hrun, ?_⟩, hst', fun k => ?_⟩
      · rw [List.map_cons, hres]
        rfl
      · rw [hmem k, hmem₁ k, List.map_cons, hres, List.mem_cons, Except.ok.injEq, or_assoc]

theorem bounds_of_mem_intersects {ws : List (Int × Int × Int)}
    (h : intersects cfg time = some ws) {w : Int × Int × Int} (hw : w ∈ ws) :
    w.2 = (openTimeOf cfg w.1, closeTimeOf cfg w.1) :=
  congrArg Prod.snd ((mem_intersects h).mp hw).2.2

/-- The windows that `intersects` returns close at an instant. -/
theorem closeTimeOf_le_maxUtc {ws : List (Int × Int × Int)} (h : intersects cfg time = some ws)
    {w : Int × Int × Int} (hw : w ∈ ws) : closeTimeOf cfg w.1 ≤ maxUtc := by
  obtain ⟨hidx, hopen, -⟩ := (mem_intersects h).mp hw
  have hoffset := (intersects_eq_some_iff.mp h).2.1
  have hfits := ((isSome_intersects_iff hoffset).mp (Option.isSome_iff_exists.mpr ⟨ws, h⟩)).2
  exact ((hfits w.1 hidx).2 hopen).2

/-- **What an insertion does** to a windower with proper boundaries: it returns, and from then on
tracks the windows that the item goes into. -/
theorem insert_eq {ws : List (Int × Int × Int)} (hst : Stored cfg ct)
    (h : intersects cfg time = some ws) (watermark : Int) :
    ∃ ct', ct.insert cfg watermark time = some (ct', ws.map (resultOf watermark)) ∧
      Stored cfg ct' ∧ ∀ k : Int, k ∈ ct' ↔ k ∈ ct ∨ .ok k ∈ ws.map (resultOf watermark) := by
  obtain ⟨ct', hrun, hct'⟩ := run_insertIntersecting watermark ws hst
    fun w hw => bounds_of_mem_intersects h hw
  refine ⟨ct', ?_, hct'⟩
  unfold SlidingWindower.insert
  rw [h]
  exact hrun

theorem insert_eq_none (h : intersects cfg time = none) :
    ct.insert cfg watermark time = none := by
  unfold SlidingWindower.insert
  rw [h]
  rfl

end SlidingWindower

/-! ### The two loops of a call -/

section

variable {cfg : SlidingConfig} {logic : WindowLogic V R L}

/-- The window that a result of `insert` is about. -/
def resultKey : Except InsertError Int → Int
  | .ok key => key
  | .error (.late key) => key

theorem resultKey_resultOf (watermark : Int) (w : Int × Int × Int) :
    resultKey (resultOf watermark w) = w.1 := by
  unfold resultOf
  split_ifs <;> rfl

/-- The loop over the results of an insertion answers for each window once. -/
theorem Settles.results {ct : SlidingWindower} (value : V) (itemTime : Int) :
    ∀ (results : List (Except InsertError Int)) {events : List (WindowEvent V R)}
      {cur : TreeMap Int L}, Settles cfg logic events cur →
    (∀ k, .ok k ∈ results → getMetadata ct k = some (metadataOf cfg k)) →
    ∃ cur' es, Runs.run (onResult (slidingWindower cfg) logic ct value itemTime) cur results =
        some (cur', es) ∧ Settles cfg logic (events ++ es) cur' ∧
      es.filterMap WindowEvent.target? = results.map (fun r => (resultKey r, value)) ∧
      ∀ k : Int, k ∈ cur' ↔ k ∈ cur ∨ .ok k ∈ results
  | [], events, cur, h, _ => ⟨cur, [], rfl, by rwa [List.append_nil], rfl, by simp⟩
  | .error (.late key) :: results, events, cur, h, hmeta => by
    obtain ⟨cur', es, hrun, hs, htarget, hmem⟩ := Settles.results value itemTime results
      (h.late key value) fun k hk => hmeta k (List.mem_cons_of_mem _ hk)
    have hstep : onResult (slidingWindower cfg) logic ct value itemTime cur
        (.error (.late key)) = some (cur, [.late key value]) := rfl
    refine ⟨cur', .late key value :: es, Runs.run_cons hstep hrun, ?_, ?_, fun k => ?_⟩
    · rwa [← List.append_cons] at hs
    · rw [List.map_cons, ← htarget]
      rfl
    · rw [hmem k]
      simp
  | .ok key :: results, events, cur, h, hmeta => by
    have hkey := hmeta key List.mem_cons_self
    obtain ⟨cur', es, hrun, hs, htarget, hmem⟩ := Settles.results value itemTime results
      (h.fold key value itemTime
        (logic.withNext (cur.getD key logic.build) (some (value, itemTime))).2)
      fun k hk => hmeta k (List.mem_cons_of_mem _ hk)
    have hstep : onResult (slidingWindower cfg) logic ct value itemTime cur (.ok key) =
        some (cur.insert key (logic.withNext (cur.getD key logic.build) (some (value, itemTime))).1,
          [.folded key value itemTime (metadataOf cfg key)
            (logic.withNext (cur.getD key logic.build) (some (value, itemTime))).2]) := by
      show (getMetadata ct key).bind _ = _
      rw [hkey]
      rfl
    refine ⟨cur', _, Runs.run_cons hstep hrun, ?_, ?_, fun k => ?_⟩
    · rwa [List.append_assoc] at hs
    · rw [List.map_cons, ← htarget]
      rfl
    · rw [hmem k, TreeMap.mem_insert, Std.LawfulEqCmp.compare_eq_iff_eq, List.mem_cons,
        Except.ok.injEq, eq_comm, or_comm (a := k = key), or_assoc]

/-- The loop over the windows that close empties each of them once. -/
theorem Settles.closeAll : ∀ (closed : List (Int × WindowMetadata))
      {events : List (WindowEvent V R)} {cur : TreeMap Int L}, Settles cfg logic events cur →
    (closed.map Prod.fst).Nodup → (∀ c ∈ closed, c.1 ∈ cur ∧ c.2 = metadataOf cfg c.1) →
    ∃ cur' es, Runs.run (onClosed logic) cur closed = some (cur', es) ∧
      Settles cfg logic (events ++ es) cur' ∧ es.filterMap WindowEvent.target? = [] ∧
      ∀ k : Int, k ∈ cur' ↔ k ∈ cur ∧ k ∉ closed.map Prod.fst
  | [], events, cur, h, _, _ => ⟨cur, [], rfl, by rwa [List.append_nil], rfl, by simp⟩
  | (key, metadata) :: closed, events, cur, h, hnd, hclosed => by
    obtain ⟨hkey, rfl⟩ : key ∈ cur ∧ metadata = metadataOf cfg key :=
      hclosed _ List.mem_cons_self
    rw [TreeMap.mem_iff_isSome_getElem?] at hkey
    obtain ⟨l, hl⟩ := Option.isSome_iff_exists.mp hkey
    obtain ⟨hnot, hnd⟩ := List.nodup_cons.mp hnd
    have hrest : ∀ c ∈ closed, c.1 ∈ cur.erase key ∧ c.2 = metadataOf cfg c.1 := by
      intro c hc
      obtain ⟨hmem, hm⟩ := hclosed c (List.mem_cons_of_mem _ hc)
      have hne : key ≠ c.1 := by
        intro he
        exact hnot (List.mem_map.mpr ⟨c, hc, he.symm⟩)
      exact ⟨TreeMap.mem_erase.mpr ⟨by simpa using hne, hmem⟩, hm⟩
    obtain ⟨cur', es, hrun, hs, htarget, hmem⟩ :=
      Settles.closeAll closed (h.close hl) hnd hrest
    have hstep : onClosed logic cur (key, metadataOf cfg key) =
        some (cur.erase key, [.closed key (metadataOf cfg key) (logic.withNext l none).2]) := by
      show cur[key]?.bind _ = _
      rw [hl]
      rfl
    refine ⟨cur', _, Runs.run_cons hstep hrun, ?_, ?_, fun k => ?_⟩
    · rwa [List.append_assoc] at hs
    · exact htarget
    · have hne : compare key k ≠ .eq ↔ ¬ k = key := by
        rw [ne_eq, Std.LawfulEqCmp.compare_eq_iff_eq, eq_comm]
      rw [hmem k, TreeMap.mem_erase, List.map_cons, List.mem_cons, not_or, hne]
      constructor
      · rintro ⟨⟨hk, hcur⟩, hrest⟩
        exact ⟨hcur, hk, hrest⟩
      · rintro ⟨hcur, hk, hrest⟩
        exact ⟨⟨hk, hcur⟩, hrest⟩

end

/-! ### What a call does -/

namespace SlidingWindower

variable {cfg : SlidingConfig} {ct : SlidingWindower}

theorem Stored.drainClosed (h : Stored cfg ct) (watermark : Int) :
    Stored cfg (ct.drainClosed watermark).1 := fun k _ hb => h k _ (drainClosed_entries hb)

/-- The windows that stay are those that do not close before the watermark. -/
theorem mem_drainClosed_fst (h : Stored cfg ct) {watermark k : Int} :
    k ∈ (ct.drainClosed watermark).1 ↔ k ∈ ct ∧ ¬ closeTimeOf cfg k < watermark := by
  rw [TreeMap.mem_iff_isSome_getElem?, TreeMap.mem_iff_isSome_getElem?, SlidingWindower.drainClosed,
    TreeMap.getElem?_filter']
  cases hk : ct[k]? with
  | none => simp
  | some bounds =>
    obtain rfl := h k bounds hk
    by_cases hlt : closeTimeOf cfg k < watermark
    · simp [Option.filter, hlt]
    · simp [Option.filter, hlt]

/-- The windows that close are the others. -/
theorem mem_drainClosed_snd (h : Stored cfg ct) {watermark k : Int} :
    k ∈ ((ct.drainClosed watermark).2).map Prod.fst ↔ k ∈ ct ∧ closeTimeOf cfg k < watermark := by
  constructor
  · intro hk
    obtain ⟨c, hc, rfl⟩ := List.mem_map.mp hk
    have hclosed := (drainClosed_spec (fun k bounds hb => by rw [h k bounds hb]) watermark).2.2.1 c hc
    exact ⟨hclosed.1, hclosed.2.2⟩
  · rintro ⟨hk, hlt⟩
    rw [TreeMap.mem_iff_isSome_getElem?] at hk
    obtain ⟨bounds, hb⟩ := Option.isSome_iff_exists.mp hk
    obtain rfl := h k bounds hb
    refine List.mem_map.mpr ⟨(k, metadataOf cfg k), List.mem_map.mpr
      ⟨(k, openTimeOf cfg k, closeTimeOf cfg k), List.mem_filter.mpr ⟨?_, ?_⟩, rfl⟩, rfl⟩
    · exact TreeMap.mem_toList_iff_getElem?_eq_some.mpr hb
    · exact decide_eq_true hlt

end SlidingWindower

/-- The windows that `intersects` returns for the time of an item, with the item's value. -/
def addressed (clock : Clock V C) (cfg : SlidingConfig) (c : C) (itemNow : Int) :
    Poll (Option V) → Option (List (Int × V))
  | .ready (some value) =>
    (intersects cfg (clock.timeFor c itemNow value).2).map fun ws => ws.map fun w => (w.1, value)
  | _ => some []

/-- The windows that a call addresses; `none` if the clock or `intersects` panics. -/
def Call.addressed (clock : Clock V C) (cfg : SlidingConfig) (call : Call V) (c : C) :
    Option (List (Int × V)) := do
  let (c, _) ← clock.watermark c call.now call.nextValue
  Bytewax.addressed clock cfg c call.itemNow call.nextValue

/-- The windower and `current_state` agree, and hold what was folded and not yet emitted. -/
structure Keeps (cfg : SlidingConfig) (logic : WindowLogic V R L)
    (events : List (WindowEvent V R)) (s : WindowStatefulLogic C SlidingWindower L) : Prop where
  settles : Settles cfg logic events s.currentState
  stored : Stored cfg s.windower
  closes_le : ∀ k ∈ s.windower, closeTimeOf cfg k ≤ maxUtc
  tracked : ∀ k : Int, k ∈ s.windower ↔ k ∈ s.currentState

section

variable {clock : Clock V C} {cfg : SlidingConfig} {logic : WindowLogic V R L}
  {events : List (WindowEvent V R)} {s s' : WindowStatefulLogic C SlidingWindower L}

theorem Keeps.build :
    Keeps cfg logic [] (WindowStatefulLogic.build (L := L) clock (slidingWindower cfg)) where
  settles := .nil
  stored k bounds h := by simp [WindowStatefulLogic.build, slidingWindower] at h
  closes_le k h := by simp [WindowStatefulLogic.build, slidingWindower] at h
  tracked k := by simp [WindowStatefulLogic.build, slidingWindower]

/-- An item is accepted: it is late for, or folded into, each window that it is in. -/
theorem Keeps.accept (h : Keeps cfg logic events s) (watermark itemNow : Int)
    {nextValue : Poll (Option V)} {targets : List (Int × V)}
    (ht : addressed clock cfg s.clock itemNow nextValue = some targets) :
    ∃ mid es, acceptItem clock (slidingWindower cfg) logic s watermark itemNow nextValue =
        some (mid, es) ∧ Keeps cfg logic (events ++ es) mid ∧
      es.filterMap WindowEvent.target? = targets ∧ (targets.map Prod.fst).Nodup := by
  rcases nextValue with (_ | value) | _
  · obtain rfl := Option.some.inj ht
    exact ⟨s, [], rfl, by rwa [List.append_nil], rfl, List.nodup_nil⟩
  · obtain ⟨ws, hws, rfl⟩ := Option.map_eq_some_iff.mp ht
    obtain ⟨ct', hins, hst, hmem⟩ := insert_eq h.stored hws watermark
    obtain ⟨cur', es, hrun, hs, htarget, hcur⟩ := h.settles.results value
      (clock.timeFor s.clock itemNow value).2 (ws.map (resultOf watermark))
      fun k hk => hst.getMetadata ((hmem k).mpr (.inr hk))
    refine ⟨⟨(clock.timeFor s.clock itemNow value).1, ct', cur'⟩, es, ?_, ⟨hs, hst, ?_, ?_⟩, ?_, ?_⟩
    · show ((SlidingWindower.insert cfg s.windower watermark _).bind _) = _
      rw [hins]
      show ((Runs.run _ s.currentState _).bind _) = _
      rw [hrun]
      rfl
    · intro k hk
      rcases (hmem k).mp hk with hk | hk
      · exact h.closes_le k hk
      · obtain ⟨w, hw, he⟩ := List.mem_map.mp hk
        have hkey := resultKey_resultOf watermark w
        rw [he] at hkey
        rw [show k = w.1 from hkey]
        exact closeTimeOf_le_maxUtc hws hw
    · intro k
      rw [hmem k, hcur k, h.tracked k]
    · rw [htarget, List.map_map]
      exact List.map_congr_left fun w _ => by rw [Function.comp, resultKey_resultOf]
    · rw [List.map_map]
      exact (pairwise_windowIdxs.imp fun hlt => ne_of_lt hlt).sublist (intersects_sublist hws)
  · obtain rfl := Option.some.inj ht
    exact ⟨s, [], rfl, by rwa [List.append_nil], rfl, List.nodup_nil⟩

/-- The windows that close before the watermark are emitted and forgotten. -/
theorem Keeps.close (h : Keeps cfg logic events s) (watermark : Int) :
    ∃ s' es, closeWindows (slidingWindower cfg) logic s watermark = some (s', es) ∧
      Keeps cfg logic (events ++ es) s' ∧ es.filterMap WindowEvent.target? = [] ∧
      ∀ k ∈ s'.windower, ¬ closeTimeOf cfg k < watermark := by
  have hclosed : ∀ c ∈ (SlidingWindower.drainClosed s.windower watermark).2,
      c.1 ∈ s.currentState ∧ c.2 = metadataOf cfg c.1 := by
    intro c hc
    have hk := ((mem_drainClosed_snd h.stored).mp (List.mem_map_of_mem hc)).1
    have hstored := h.stored c.1 _ (drainClosed_closed hc)
    refine ⟨(h.tracked c.1).mp hk, ?_⟩
    obtain ⟨hopen, hclose⟩ := Prod.mk.inj hstored
    show WindowMetadata.mk c.2.openTime c.2.closeTime = _
    rw [hopen, hclose]
    rfl
  have hnd := (drainClosed_spec (fun k bounds hb => by rw [h.stored k bounds hb]) watermark).2.1
  obtain ⟨cur', es, hrun, hs, htarget, hcur⟩ := h.settles.closeAll _ hnd hclosed
  refine ⟨⟨s.clock, (SlidingWindower.drainClosed s.windower watermark).1, cur'⟩, es, ?_,
    ⟨hs, h.stored.drainClosed watermark, ?_, ?_⟩, htarget, ?_⟩
  · show ((Runs.run (onClosed logic) s.currentState
      (SlidingWindower.drainClosed s.windower watermark).2).bind _) = _
    rw [hrun]
    rfl
  · intro k hk
    exact h.closes_le k ((mem_drainClosed_fst h.stored).mp hk).1
  · intro k
    rw [mem_drainClosed_fst h.stored, hcur k, mem_drainClosed_snd h.stored, ← h.tracked k]
    constructor
    · rintro ⟨hk, hlt⟩
      exact ⟨hk, fun hc => hlt hc.2⟩
    · rintro ⟨hk, hnot⟩
      exact ⟨hk, fun hlt => hnot ⟨hk, hlt⟩⟩
  · intro k hk
    exact ((mem_drainClosed_fst h.stored).mp hk).2

/-- **What a call does**: it returns if the clock and `intersects` do, and answers for each window
that it addresses once. -/
theorem Keeps.call (h : Keeps cfg logic events s) {call : Call V} {targets : List (Int × V)}
    (ht : call.addressed clock cfg s.clock = some targets) :
    ∃ s' es, onAwake clock (slidingWindower cfg) logic s call = some (s', es) ∧
      Keeps cfg logic (events ++ es) s' ∧ es.filterMap WindowEvent.target? = targets ∧
      (targets.map Prod.fst).Nodup := by
  obtain ⟨⟨c, watermark⟩, hw, ht⟩ := Option.bind_eq_some_iff.mp ht
  have hc : Keeps cfg logic events { s with clock := c } := ⟨h.1, h.2, h.3, h.4⟩
  obtain ⟨mid, es, hacc, hmid, htarget, hnd⟩ := hc.accept watermark call.itemNow ht
  obtain ⟨s', es', hclose, hs', hnone, -⟩ := hmid.close watermark
  refine ⟨s', es ++ es', onAwake_eq_some.mpr ⟨c, watermark, mid, es, es', hw, hacc, hclose, rfl⟩,
    ?_, ?_, hnd⟩
  · rwa [List.append_assoc] at hs'
  · rw [List.filterMap_append, htarget, hnone, List.append_nil]

theorem isSome_addressed {call : Call V} {es : List (WindowEvent V R)}
    (h : onAwake clock (slidingWindower cfg) logic s call = some (s', es)) :
    (call.addressed clock cfg s.clock).isSome := by
  obtain ⟨c, watermark, mid, es, es', hw, hacc, -, -⟩ := onAwake_eq_some.mp h
  have hbind : call.addressed clock cfg s.clock =
      addressed clock cfg c call.itemNow call.nextValue := by
    unfold Call.addressed
    rw [hw]
    rfl
  rw [hbind]
  rcases hv : call.nextValue with (_ | value) | _
  · rfl
  · rw [hv] at hacc
    obtain ⟨r, hins, -⟩ := Option.bind_eq_some_iff.mp hacc
    cases hi : intersects cfg (clock.timeFor c call.itemNow value).2 with
    | none =>
      rw [show (slidingWindower cfg).insert s.windower watermark _ = none from insert_eq_none hi]
        at hins
      cases hins
    | some ws =>
      show ((intersects cfg (clock.timeFor c call.itemNow value).2).map _).isSome
      rw [hi]
      rfl
  · rfl

theorem Keeps.step (h : Keeps cfg logic events s) {call : Call V} {es : List (WindowEvent V R)}
    (hs : onAwake clock (slidingWindower cfg) logic s call = some (s', es)) :
    Keeps cfg logic (events ++ es) s' ∧ ∃ targets, call.addressed clock cfg s.clock = some targets ∧
      es.filterMap WindowEvent.target? = targets ∧ (targets.map Prod.fst).Nodup := by
  obtain ⟨targets, ht⟩ := Option.isSome_iff_exists.mp (isSome_addressed hs)
  obtain ⟨s₁, es₁, hs₁, hkeeps, htarget⟩ := h.call ht
  rw [hs] at hs₁
  obtain ⟨rfl, rfl⟩ := Prod.mk.inj (Option.some.inj hs₁)
  exact ⟨hkeeps, targets, ht, htarget⟩

theorem Keeps.run {calls : List (Call V)}
    (hr : Runs.run (onAwake clock (slidingWindower cfg) logic)
      (WindowStatefulLogic.build clock (slidingWindower cfg)) calls = some (s, events)) :
    Keeps cfg logic events s :=
  Runs.run_prefixes (P := fun _ s events => Keeps cfg logic events s)
    (fun _ _ _ _ _ _ _ _ _ h hs => (h.step hs).1) .build hr

end

/-! ### Conservation -/

/-- Python's datetimes and timedeltas, from which a configuration is made, have a resolution of one
microsecond. -/
structure SlidingConfig.InMicroseconds (cfg : SlidingConfig) : Prop where
  length_dvd : 1000 ∣ cfg.length
  offset_dvd : 1000 ∣ cfg.offset
  alignTo_dvd : 1000 ∣ cfg.alignTo

/-- No window closes in the very last nanosecond. -/
theorem SlidingConfig.InMicroseconds.closeTimeOf_ne {cfg : SlidingConfig}
    (h : cfg.InMicroseconds) (k : Int) : closeTimeOf cfg k ≠ maxUtc := by
  intro he
  have hdvd : 1000 ∣ closeTimeOf cfg k :=
    Int.dvd_add (Int.dvd_add h.alignTo_dvd (Dvd.dvd.mul_right h.offset_dvd _)) h.length_dvd
  rw [he] at hdvd
  exact absurd hdvd (by decide)

/-- A call answers once for each window that `intersects` returns for the time of its item: the
value is late for the window, or is folded into the window's logic. -/
def AnswersOnce (clock : Clock V C) (cfg : SlidingConfig) (logic : WindowLogic V R L)
    (s : WindowStatefulLogic C SlidingWindower L) (call : Call V) : Prop :=
  ∀ s' es, onAwake clock (slidingWindower cfg) logic s call = some (s', es) →
    ∃ targets, call.addressed clock cfg s.clock = some targets ∧
      es.filterMap WindowEvent.target? = targets ∧ (targets.map Prod.fst).Nodup

/-- What each window emitted are the values folded into it, batch by batch, each batch with the
window's own open and close time; and nothing is left. -/
structure ConservesWindows (cfg : SlidingConfig) (logic : WindowLogic V R L)
    (events : List (WindowEvent V R)) (s : WindowStatefulLogic C SlidingWindower L) : Prop where
  emitted : ∀ k, ∃ parts : List (List (V × Int)), parts.flatten = folds k events ∧ [] ∉ parts ∧
    (closes events).filter (fun c => c.1 = k) =
      parts.map fun part => (k, metadataOf cfg k, logic.closeOutput part)
  metadata : ∀ e ∈ events, ∀ k m, e.metadata? = some (k, m) → m = metadataOf cfg k
  windower_empty : (slidingWindower cfg).isEmpty s.windower = true
  currentState_empty : s.currentState.isEmpty = true

section

variable {clock : Clock V C} {cfg : SlidingConfig} {logic : WindowLogic V R L}
  {events : List (WindowEvent V R)} {s s' : WindowStatefulLogic C SlidingWindower L}

/-- At the end of the input no window stays open. -/
theorem Keeps.not_mem_eof (hcfg : cfg.InMicroseconds) (h : Keeps cfg logic events s)
    {now itemNow : Int} {es : List (WindowEvent V R)}
    (hs : onAwake clock (slidingWindower cfg) logic s (Call.eof now itemNow) = some (s', es))
    (k : Int) : k ∉ s'.windower := by
  obtain ⟨c, watermark, mid, es₁, es₂, hw, hacc, hclose, -⟩ := onAwake_eq_some.mp hs
  obtain rfl := clock.watermark_eof hw
  obtain ⟨rfl, rfl⟩ := Prod.mk.inj (Option.some.inj hacc)
  have hmid : Keeps cfg logic events { s with clock := c } := ⟨h.1, h.2, h.3, h.4⟩
  obtain ⟨s₁, es₃, hclose', hkeeps, -, hlast⟩ := hmid.close maxUtc
  rw [hclose] at hclose'
  obtain ⟨rfl, rfl⟩ := Prod.mk.inj (Option.some.inj hclose')
  intro hk
  have hle := hkeeps.closes_le k hk
  have hge := hlast k hk
  have hne := hcfg.closeTimeOf_ne k
  omega

/-- Once nothing is open, all that was folded has been emitted. -/
theorem Keeps.conserves (h : Keeps cfg logic events s) (hempty : ∀ k, k ∉ s.windower) :
    ConservesWindows cfg logic events s where
  emitted k := by
    have hpending : (batches k events).pending = [] := by
      by_contra hp
      exact hempty k ((h.tracked k).mpr (h.settles.mem_iff.mpr hp))
    refine ⟨(batches k events).emitted, ?_, h.settles.emitted_ne k, h.settles.closes_of k⟩
    rw [← flatten_batches, hpending, List.append_nil]
  metadata := h.settles.metadata_of
  windower_empty := TreeMap.isEmpty_iff_forall_not_mem.mpr hempty
  currentState_empty := TreeMap.isEmpty_iff_forall_not_mem.mpr fun k hk =>
    hempty k ((h.tracked k).mpr hk)

/-- What a collecting window emitted are the values folded into it. -/
theorem ConservesWindows.collected {events : List (WindowEvent V (List V))}
    {s : WindowStatefulLogic C SlidingWindower (Option (List V))}
    (h : ConservesWindows cfg (foldWindowLogic [] fun acc (value : V) => acc ++ [value]) events s)
    (k : Int) : (((closes events).filter fun c => c.1 = k).flatMap fun c => c.2.2).flatten =
      (folds k events).map Prod.fst := by
  obtain ⟨parts, hflatten, hne, hcloses⟩ := h.emitted k
  have hfold : ∀ values acc : List V,
      values.foldl (fun acc value => acc ++ [value]) acc = acc ++ values := by
    intro values
    induction values with
    | nil => simp
    | cons value values ih => simp [ih]
  have hpart : ∀ part ∈ parts,
      (foldWindowLogic [] fun acc (value : V) => acc ++ [value]).closeOutput part =
        [part.map Prod.fst] := by
    intro part hp
    rw [foldWindowLogic_closeOutput _ _ (fun he => hne (he ▸ hp)), hfold, List.nil_append]
  rw [hcloses, List.flatMap_map, ← hflatten]
  clear hflatten hne hcloses
  induction parts with
  | nil => rfl
  | cons part parts ih =>
    rw [List.flatMap_cons, List.flatten_append, hpart part List.mem_cons_self,
      ih fun p hp => hpart p (List.mem_cons_of_mem _ hp)]
    simp

end

/-- **Sliding and tumbling windows conserve values.**  The calls up to the end of the input all
return if the clock and `intersects` do; each value is late for, or folded into, each of its windows
once; and every window has emitted the values folded into it, in order, and is gone. -/
theorem slidingWindows_conserve (clock : Clock V C) {cfg : SlidingConfig}
    (hcfg : cfg.InMicroseconds) (logic : WindowLogic V R L) (calls : List (Call V))
    (now itemNow : Int) :
    ((Runs.run (onAwake clock (slidingWindower cfg) logic) (build clock (slidingWindower cfg))
        (calls ++ [Call.eof now itemNow])).isSome ↔
      Runs.Along (onAwake clock (slidingWindower cfg) logic)
        (fun s call => (call.addressed clock cfg s.clock).isSome)
        (build clock (slidingWindower cfg)) (calls ++ [Call.eof now itemNow])) ∧
      Runs.Along (onAwake clock (slidingWindower cfg) logic) (AnswersOnce clock cfg logic)
        (build clock (slidingWindower cfg)) (calls ++ [Call.eof now itemNow]) ∧
      ∀ s events, Runs.run (onAwake clock (slidingWindower cfg) logic)
          (build clock (slidingWindower cfg)) (calls ++ [Call.eof now itemNow]) = some (s, events) →
        ConservesWindows cfg logic events s := by
  have hinv : ∀ s, ∀ i ∈ calls ++ [Call.eof now itemNow], ∀ s₁ o₁,
      (∃ events, Keeps cfg logic events s) →
      onAwake clock (slidingWindower cfg) logic s i = some (s₁, o₁) →
      ∃ events, Keeps cfg logic events s₁ := by
    rintro s i - s₁ o₁ ⟨events, h⟩ hs
    exact ⟨_, (h.step hs).1⟩
  refine ⟨⟨fun h => ?_, fun h => ?_⟩, ?_, fun s events hr => ?_⟩
  · obtain ⟨⟨s, events⟩, hr⟩ := Option.isSome_iff_exists.mp h
    exact Runs.along_of_run (fun s call s' es hs => isSome_addressed hs) hr
  · obtain ⟨s, events, hr, -⟩ := Runs.run_total (onAwake clock (slidingWindower cfg) logic)
      (calls ++ [Call.eof now itemNow]) (P := fun s => ∃ events, Keeps cfg logic events s)
      (fun s call hs haddr => by
        obtain ⟨events, hs⟩ := hs
        obtain ⟨targets, ht⟩ := Option.isSome_iff_exists.mp haddr
        obtain ⟨s₁, es, hstep, hkeeps, -⟩ := hs.call ht
        exact ⟨s₁, es, hstep, _, hkeeps⟩)
      ⟨[], .build⟩ h
    rw [hr]
    rfl
  · refine Runs.along_of_invariant hinv ?_ ⟨[], .build⟩
    rintro s call - ⟨events, h⟩ s' es hs
    exact (h.step hs).2
  · obtain ⟨s₁, o₁, o₂, hr₁, hlast, rfl⟩ := Runs.exists_of_run_append hr
    rw [Runs.run_singleton] at hlast
    have h₁ : Keeps cfg logic o₁ s₁ := .run hr₁
    exact (h₁.step hlast).1.conserves (h₁.not_mem_eof hcfg hlast)

/-- Windows of two seconds that start every second, with a watermark two seconds behind: an item
goes into two windows, and one that comes late into none. -/
theorem slidingWindows_conserve_two_seconds :
    (SlidingConfig.mk 2000000000 1000000000 0).InMicroseconds ∧
      ∃ s events, Runs.run (onAwake (eventClock id 2000000000)
          (slidingWindower ⟨2000000000, 1000000000, 0⟩) collectLogic)
          (build (eventClock id 2000000000) (slidingWindower ⟨2000000000, 1000000000, 0⟩))
          ([⟨0, 0, .ready (some 5000000000)⟩, ⟨0, 0, .ready (some 9000000000)⟩,
            ⟨0, 0, .ready (some 3000000000)⟩] ++ [Call.eof 0 0]) = some (s, events) ∧
        events.filterMap WindowEvent.target? = [(4, 5000000000), (5, 5000000000),
          (8, 9000000000), (9, 9000000000), (2, 3000000000), (3, 3000000000)] ∧
        ConservesWindows ⟨2000000000, 1000000000, 0⟩ collectLogic events s := by
  have hcfg : (SlidingConfig.mk 2000000000 1000000000 0).InMicroseconds :=
    ⟨by decide, by decide, by decide⟩
  have hrun : (Runs.run (onAwake (eventClock id 2000000000)
      (slidingWindower ⟨2000000000, 1000000000, 0⟩) collectLogic)
      (build (eventClock id 2000000000) (slidingWindower ⟨2000000000, 1000000000, 0⟩))
      ([⟨0, 0, .ready (some 5000000000)⟩, ⟨0, 0, .ready (some 9000000000)⟩,
        ⟨0, 0, .ready (some 3000000000)⟩] ++ [Call.eof 0 0])).map
      (fun r => r.2.filterMap WindowEvent.target?) = some [(4, 5000000000), (5, 5000000000),
        (8, 9000000000), (9, 9000000000), (2, 3000000000), (3, 3000000000)] := by
    decide +kernel
  obtain ⟨⟨s, events⟩, hrun, htarget⟩ := Option.map_eq_some_iff.mp hrun
  exact ⟨hcfg, s, events, hrun, htarget, (slidingWindows_conserve (eventClock id 2000000000) hcfg
    collectLogic _ 0 0).2.2 s events hrun⟩

end Bytewax
