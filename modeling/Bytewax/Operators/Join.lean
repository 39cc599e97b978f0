import Bytewax.Operators.BuiltinLogics
import Bytewax.Operators.UnaryNotify
import Bytewax.Operators.UnaryTrace

/-!
# Bytewax.Operators.Join — what `join` and `join_named` emit

The items of a key are cut into segments: for a complete join a segment ends with the item that makes
every side seen, for a running join all items are one segment.  The state of the key's logic is the
last value of each side in the segment (`Seen`); the logic that is discarded with a segment and built
again for the next one starts with no side seen, which is the empty segment.
-/

namespace Bytewax

open Std (TreeMap TreeSet)

namespace Join

variable {K N V : Type} [DecidableEq N]

omit [DecidableEq N] in
/-- `_join_name_merge`: the items of the sides, each with the name of its side. -/
def joinNameMerge (names : List N) (items : List (K × Fin names.length × V)) : List (K × N × V) :=
  items.map fun p => (p.1, names[p.2.1], p.2.2)

/-- The names that `join` gives to its sides: `str(i)`. -/
def sideNames (sides : Nat) : List String := (List.range sides).map Nat.repr

theorem nodup_sideNames (sides : Nat) : (sideNames sides).Nodup := by
  refine List.Nodup.map (fun i j h => ?_) List.nodup_range
  have hdigits : ∀ n : Nat, Nat.ofDigitChars 10 n.repr.toList 0 = n := fun n => by
    rw [Nat.toList_repr, Nat.ofDigitChars_toDigits (by decide) (by decide)]
  rw [← hdigits i, ← hdigits j, h]

/-! ### Segments -/

section Segment

variable (names : List N)

/-- The last value of a side. -/
def lastOf (segment : List (N × V)) (name : N) : Option V := (Keyed.valuesOf name segment).getLast?

/-- Every side is seen. -/
def Complete (segment : List (N × V)) : Prop := ∀ name ∈ names, name ∈ segment.map Prod.fst

instance (segment : List (N × V)) : Decidable (Complete names segment) :=
  inferInstanceAs (Decidable (∀ name ∈ names, name ∈ segment.map Prod.fst))

/-- The items since the last emission of a complete join. -/
def sinceEmission (items : List (N × V)) : List (N × V) :=
  items.foldl (fun segment item =>
    if Complete names (segment ++ [item]) then [] else segment ++ [item]) []

/-- The items that a join goes by. -/
def segment (running : Bool) (items : List (N × V)) : List (N × V) :=
  if running then items else sinceEmission names items

/-- The segment that an item makes a join emit, after these items. -/
def emitted (running : Bool) (items : List (N × V)) (item : N × V) : Option (List (N × V)) :=
  let seen := segment names running items ++ [item]
  if running ∨ Complete names seen then some seen else none

/-- The last value of each side, or `None`. -/
def lastTuple {A : Type} (segment : List (N × Py A)) : List (Py A) :=
  names.map fun name => (lastOf segment name).join

/-- The sides that are seen, each with its last value. -/
def lastDict (segment : List (N × V)) : List (N × V) :=
  names.filterMap fun name => (lastOf segment name).map fun value => (name, value)

end Segment

variable {names : List N} {running : Bool} {items : List (N × V)}

theorem lastOf_concat (items : List (N × V)) (item : N × V) (name : N) :
    lastOf (items ++ [item]) name = if item.1 = name then some item.2 else lastOf items name := by
  rw [lastOf, Keyed.valuesOf_append, Keyed.valuesOf_cons, Keyed.valuesOf_nil]
  by_cases h : item.1 = name
  · rw [if_pos h, if_pos h, List.getLast?_concat]
  · rw [if_neg h, if_neg h, List.append_nil]
    rfl

theorem lastOf_isSome (items : List (N × V)) (name : N) :
    (lastOf items name).isSome = true ↔ name ∈ items.map Prod.fst := by
  rw [← Keyed.valuesOf_ne_nil, lastOf, List.getLast?_isSome]

variable (names running) in
theorem segment_concat (items : List (N × V)) (item : N × V) :
    segment names running (items ++ [item]) =
      if ¬ running ∧ Complete names (segment names running items ++ [item]) then []
      else segment names running items ++ [item] := by
  cases running with
  | true => simp [segment]
  | false =>
    simp only [segment, sinceEmission, List.foldl_append, List.foldl_cons, List.foldl_nil,
      Bool.false_eq_true, if_false, not_false_eq_true, true_and]

/-- The items of a complete join are cut where every side has been seen, as early as possible. -/
theorem exists_segments (hne : names ≠ []) (items : List (N × V)) :
    ∃ segments : List (List (N × V)), items = segments.flatten ++ sinceEmission names items ∧
      (∀ segment ∈ segments, Complete names segment ∧ ¬ Complete names segment.dropLast) ∧
      ¬ Complete names (sinceEmission names items) := by
  induction items using List.reverseRecOn with
  | nil =>
    refine ⟨[], rfl, by simp, fun hc => ?_⟩
    obtain ⟨name, hname⟩ := List.exists_mem_of_ne_nil names hne
    exact absurd (hc name hname) List.not_mem_nil
  | append_singleton items item ih =>
    obtain ⟨segments, hitems, hsegments, hopen⟩ := ih
    have hsince : sinceEmission names (items ++ [item]) =
        if Complete names (sinceEmission names items ++ [item]) then []
        else sinceEmission names items ++ [item] := by
      rw [sinceEmission, List.foldl_append]
      rfl
    rw [hsince]
    by_cases hc : Complete names (sinceEmission names items ++ [item])
    · rw [if_pos hc]
      refine ⟨segments ++ [sinceEmission names items ++ [item]], ?_, fun segment hs => ?_,
        fun hnil => ?_⟩
      · rw [List.flatten_concat, List.append_nil, ← List.append_assoc, ← hitems]
      · rcases List.mem_append.mp hs with hs | hs
        · exact hsegments segment hs
        · rw [List.mem_singleton.mp hs, List.dropLast_concat]
          exact ⟨hc, hopen⟩
      · obtain ⟨name, hname⟩ := List.exists_mem_of_ne_nil names hne
        exact absurd (hnil name hname) List.not_mem_nil
    · rw [if_neg hc]
      refine ⟨segments, ?_, hsegments, hc⟩
      rw [← List.append_assoc, ← hitems]

/-! ### The state of a logic -/

/-- The state is the last value of each side in the segment. -/
def Seen (names : List N) (state : JoinState N V) (segment : List (N × V)) : Prop :=
  state.seen.entries = names.map fun name => (name, (lastOf segment name).toList)

variable {state : JoinState N V} {seg : List (N × V)}

theorem seen_forNames (hnames : names.Nodup) :
    Seen names (JoinState.forNames names : JoinState N V) [] := by
  have hkeys : ((names.map fun name => (name, ([] : List V))).map Prod.fst).Nodup := by
    simpa [Function.comp_def] using hnames
  rw [Seen, JoinState.forNames, Dict.entries_ofList hkeys]
  rfl

theorem Seen.setVal (h : Seen names state seg) {name : N} (hname : name ∈ names) (value : V) :
    Seen names (state.setVal name value) (seg ++ [(name, value)]) := by
  rw [Seen, JoinState.setVal, Dict.entries_set_of_eq_map h hname]
  refine List.map_congr_left fun name' _ => ?_
  rw [lastOf_concat]
  by_cases hn : name = name'
  · subst hn
    simp
  · simp [hn, Function.update_of_ne (Ne.symm hn)]

theorem Seen.allSet (h : Seen names state seg) : state.allSet = true ↔ Complete names seg := by
  have hkeys : state.seen.keys = names := by
    rw [Dict.keys, h, List.map_map]
    exact List.map_id names
  have hget : ∀ name ∈ names, state.isSet name = (lastOf seg name).isSome := by
    intro name hname
    have hvalue : state.seen.get? name = some (lastOf seg name).toList := by
      refine Dict.get?_of_mem ?_
      rw [h]
      exact List.mem_map.mpr ⟨name, hname, rfl⟩
    rw [JoinState.isSet, hvalue]
    cases lastOf seg name <;> rfl
  rw [JoinState.allSet, hkeys, List.all_eq_true]
  refine forall₂_congr fun name hname => ?_
  rw [hget name hname, lastOf_isSome]

omit [DecidableEq N] in
theorem product_map_singleton {α β : Type} (g : α → β) (l : List α) :
    JoinState.product (l.map fun a => [g a]) = [l.map g] := by
  induction l with
  | nil => rfl
  | cons a l ih =>
    rw [List.map_cons, JoinState.product, ih]
    rfl

omit [DecidableEq N] in
/-- A state with at most one value a side is one tuple. -/
theorem astuples_eq {state : JoinState N V} {f : N → Option V}
    (h : state.seen.entries = names.map fun name => (name, (f name).toList)) (empty : V) :
    state.astuples empty = [names.map fun name => (f name).getD empty] := by
  have hvalues : (state.seen.values.map fun vals => if vals.length > 0 then vals else [empty]) =
      names.map fun name => [(f name).getD empty] := by
    rw [Dict.values, h, List.map_map, List.map_map]
    refine List.map_congr_left fun name _ => ?_
    show (if (f name).toList.length > 0 then (f name).toList else [empty]) = _
    cases f name with
    | none => rfl
    | some v => rfl
  rw [JoinState.astuples, hvalues, product_map_singleton]

theorem Seen.astuples {A : Type} {state : JoinState N (Py A)} {seg : List (N × Py A)}
    (h : Seen names state seg) : state.astuples none = [lastTuple names seg] := by
  rw [astuples_eq h, lastTuple]
  refine congrArg (fun t => [t]) (List.map_congr_left fun name _ => ?_)
  cases lastOf seg name with
  | none => rfl
  | some v => rfl

theorem Seen.asdicts (hnames : names.Nodup) (h : Seen names state seg) :
    state.asdicts.map Dict.entries = [lastDict names seg] := by
  have hwith : (state.seen.map fun vals => vals.map some).entries =
      names.map fun name => (name, ((lastOf seg name).map some).toList) := by
    show List.map _ state.seen.entries = _
    rw [h, List.map_map]
    refine List.map_congr_left fun name _ => ?_
    show (name, (lastOf seg name).toList.map some) = _
    cases lastOf seg name with
    | none => rfl
    | some v => rfl
  have hkeys : state.seen.keys = names := by
    rw [Dict.keys, h, List.map_map]
    exact List.map_id names
  have htuple : (names.map fun name => ((lastOf seg name).map some).getD none) =
      names.map (lastOf seg) := by
    refine List.map_congr_left fun name _ => ?_
    cases lastOf seg name with
    | none => rfl
    | some v => rfl
  have hentries : ((names.zip (names.map (lastOf seg))).filterMap fun p => p.2.map fun v => (p.1, v)) =
      lastDict names seg := by
    rw [← List.map_prod_left_eq_zip, List.filterMap_map]
    rfl
  have hnodup : ((lastDict names seg).map Prod.fst).Nodup := by
    refine List.Nodup.sublist ?_ hnames
    unfold lastDict
    clear hnames h hwith hkeys htuple hentries
    induction names with
    | nil => exact .slnil
    | cons name names ih =>
      rw [List.filterMap_cons]
      cases lastOf seg name with
      | none => exact ih.cons name
      | some v => exact ih.cons_cons name
  have htuples : (⟨state.seen.map fun vals => vals.map some⟩ : JoinState N (Option V)).astuples none =
      [names.map (lastOf seg)] := by
    rw [← htuple]
    exact astuples_eq hwith none
  rw [JoinState.asdicts, htuples, hkeys, List.map_singleton, List.map_singleton, hentries,
    Dict.entries_ofList hnodup]

/-! ### What a key's logic emits -/

section Key

variable [LinearOrder K] {k : K} {l l₁ : Option (JoinState N V)}
  {events : List (UnaryEvent K (N × V) (JoinState N V) (JoinState N V))}
  {x : UnaryEvent K (N × V) (JoinState N V) (JoinState N V)}

variable (names running) in
/-- What an item emits, after these events: the state of the segment that it completes. -/
def Emits (k : K) (pre : List (UnaryEvent K (N × V) (JoinState N V) (JoinState N V)))
    (item : N × V) (emit : List (JoinState N V)) : Prop :=
  List.Forall₂ (Seen names) emit
    (emitted names running (Unary.received k pre) item).toList

variable (names running) in
/-- The key's logic has seen the segment, and each event has emitted what it should. -/
structure Joined (k : K) (l : Option (JoinState N V))
    (events : List (UnaryEvent K (N × V) (JoinState N V) (JoinState N V))) : Prop where
  seen : Seen names (l.getD (.forNames names)) (segment names running (Unary.received k events))
  onItem : ∀ pre e item emit isComplete post, events = pre ++ .onItem e k item emit isComplete :: post →
    Emits names running k pre item emit
  other : ∀ x ∈ events, x.key = k → x.item? = none → x.emit = []

/-- An event of the key that is no item and emits nothing. -/
theorem Joined.quiet (h : Joined names running k l events)
    (hl : l₁.getD (.forNames names) = l.getD (.forNames names)) (hitem : x.item? = none)
    (hemit : x.emit = []) : Joined names running k l₁ (events ++ [x]) := by
  refine ⟨?_, fun pre e item emit isComplete post hsplit => ?_, fun y hy hk hi => ?_⟩
  · rw [hl, Unary.received_concat hitem]
    exact h.seen
  · rcases Runs.split_concat hsplit with ⟨-, hx, -⟩ | ⟨post', -, hevents⟩
    · rw [← hx] at hitem
      cases hitem
    · exact h.onItem pre e item emit isComplete post' hevents
  · rcases List.mem_append.mp hy with hy | hy
    · exact h.other y hy hk hi
    · rw [List.mem_singleton.mp hy, hemit]

theorem Joined.of_ne (h : Joined names running k l events) (hk : x.key ≠ k) :
    Joined names running k l (events ++ [x]) := by
  refine ⟨?_, fun pre e item emit isComplete post hsplit => ?_, fun y hy hy' hi => ?_⟩
  · rw [Unary.received_concat_of_ne hk]
    exact h.seen
  · rcases Runs.split_concat hsplit with ⟨-, hx, -⟩ | ⟨post', -, hevents⟩
    · rw [← hx] at hk
      exact absurd rfl hk
    · exact h.onItem pre e item emit isComplete post' hevents
  · rcases List.mem_append.mp hy with hy | hy
    · exact h.other y hy hy' hi
    · rw [List.mem_singleton.mp hy] at hy'
      exact absurd hy' hk

/-- The events before an item stay as they are. -/
theorem Joined.concat_item (h : Joined names running k l events) {e : Nat} {item : N × V}
    {emit : List (JoinState N V)} {isComplete : IsComplete}
    (hseen : Seen names (l₁.getD (.forNames names))
      (segment names running (Unary.received k events ++ [item])))
    (hemit : Emits names running k events item emit) :
    Joined names running k l₁ (events ++ [.onItem e k item emit isComplete]) := by
  refine ⟨?_, fun pre e' item' emit' isComplete' post hsplit => ?_, fun y hy hk hi => ?_⟩
  · rw [Unary.received_concat_onItem]
    exact hseen
  · rcases Runs.split_concat hsplit with ⟨rfl, hx, -⟩ | ⟨post', -, hevents⟩
    · cases hx
      exact hemit
    · exact h.onItem pre e' item' emit' isComplete' post' hevents
  · rcases List.mem_append.mp hy with hy | hy
    · exact h.other y hy hk hi
    · rw [List.mem_singleton.mp hy] at hi
      cases hi

/-- An item extends the segment, and is emitted with it if it completes it. -/
theorem Joined.item (hnames : names.Nodup) (h : Joined names running k l events) (e : Nat) (now : Int)
    {item : N × V} (hitem : item.1 ∈ names) : Joined names running k
      (Unary.kept (Unary.callItem (join names running) now l item))
      (events ++ [.onItem e k item (Unary.callItem (join names running) now l item).2.1
        (Unary.callItem (join names running) now l item).2.2]) := by
  have hseen := h.seen.setVal hitem item.2
  have hsegment := segment_concat names running (Unary.received k events) item
  have hcall : Unary.callItem (join names running) now l item =
      (join names running).onItem (l.getD (.forNames names)) now item := rfl
  rw [hcall]
  generalize l.getD (.forNames names) = state at hseen
  simp only [join]
  cases running with
  | true =>
    rw [if_pos rfl]
    refine h.concat_item ?_ ?_
    · rw [hsegment, if_neg (by simp)]
      exact hseen
    · exact .cons hseen .nil
  | false =>
    rw [if_neg Bool.false_ne_true]
    by_cases hset : (state.setVal item.1 item.2).allSet = true
    · rw [if_pos hset]
      have hcomplete := hseen.allSet.mp hset
      refine h.concat_item ?_ ?_
      · rw [hsegment, if_pos ⟨Bool.false_ne_true, hcomplete⟩]
        exact seen_forNames hnames
      · rw [Emits, emitted, if_pos (.inr hcomplete)]
        exact .cons hseen .nil
    · rw [if_neg hset]
      have hcomplete := mt hseen.allSet.mpr hset
      refine h.concat_item ?_ ?_
      · rw [hsegment, if_neg fun hc => hcomplete hc.2]
        exact hseen
      · rw [Emits, emitted, if_neg (not_or.mpr ⟨Bool.false_ne_true, hcomplete⟩)]
        exact .nil

theorem joined_of_keyRun (hnames : names.Nodup) (h : Unary.KeyRun (join names running) k none events l)
    (hevents : ∀ x ∈ events, x.isLoad = false ∧ ∀ p, x.item? = some p → p.2.1 ∈ names) :
    Joined names running k l events := by
  refine h.induct (P := fun l events => Joined names running k l events)
    (Q := fun x => x.isLoad = false ∧ ∀ p, x.item? = some p → p.2.1 ∈ names)
    (fun _ _ _ hk hj => hj.of_ne hk) (fun l xs x l₁ hx hs hj => ?_) hevents ?_
  · cases hs with
    | onItem l e now item => exact hj.item hnames e now (hx.2 (k, item) rfl)
    | onNotify state e sched => exact hj.quiet rfl rfl rfl
    | onEof state e => exact hj.quiet rfl rfl rfl
    | snap l e => exact hj.quiet rfl rfl rfl
    | load l e now change => cases hx.1
  · refine ⟨?_, fun pre e item emit isComplete post hsplit => ?_, fun x hx => by cases hx⟩
    · have hnil : segment names running (Unary.received k
          ([] : List (UnaryEvent K (N × V) (JoinState N V) (JoinState N V)))) = [] := by
        cases running <;> rfl
      rw [hnil]
      exact seen_forNames hnames
    · cases pre <;> cases hsplit

end Key

/-- The steps after the logic of `join`: `flat_map_value("astuple", ...)`. -/
def joinDown {A : Type} (emit : List (JoinState N (Py A))) : List (List (Py A)) :=
  emit.flatMap (JoinState.astuples none)

/-- The steps after the logic of `join_named`: `flat_map_value("asdict", ...)`. -/
def joinNamedDown (emit : List (JoinState N V)) : List (List (N × V)) :=
  (emit.flatMap JoinState.asdicts).map Dict.entries

theorem joinDown_eq {A : Type} {emit : List (JoinState N (Py A))} {segments : List (List (N × Py A))}
    (h : List.Forall₂ (Seen names) emit segments) : joinDown emit = segments.map (lastTuple names) := by
  induction h with
  | nil => rfl
  | cons hseen _ ih =>
    rw [joinDown, List.flatMap_cons, hseen.astuples]
    exact congrArg _ ih

theorem joinNamedDown_eq (hnames : names.Nodup) {emit : List (JoinState N V)}
    {segments : List (List (N × V))} (h : List.Forall₂ (Seen names) emit segments) :
    joinNamedDown emit = segments.map (lastDict names) := by
  induction h with
  | nil => rfl
  | cons hseen _ ih =>
    rw [joinNamedDown, List.flatMap_cons, List.map_append, hseen.asdicts hnames]
    exact congrArg _ ih

/-- **`join` and `join_named` implement their segmentation semantics**, for any interleaving of the
items of the sides, over any schedule: after each item they emit one tuple or dict with the last
value of each side, in the order of the sides, if the join is running or the item makes every side
seen since the last emission, and nothing otherwise; and nothing else is emitted. -/
theorem join_segments {A : Type} [LinearOrder K] (hnames : names.Nodup) (running : Bool)
    (resumeEpoch : Nat) {sides : Nat → List (K × Fin names.length × Py A)}
    {as : List (Activation K (N × Py A) (JoinState N (Py A)))}
    (has : Unary.Schedule (some 0) (some 0) as) (hloads : ∀ a ∈ as, a.loads = [])
    (hsides : ∀ e, Unary.delivered as e = joinNameMerge names (sides e)) :
    ∃ s events, Runs.run (Unary.activate (join names running) resumeEpoch) Unary.init as =
        some (s, events) ∧
      ((∃ a ∈ as, a.frontier = none) → Unary.given events = Unary.arrivals as) ∧
      ∀ k, (∀ pre e item emit isComplete post,
          events = pre ++ .onItem e k item emit isComplete :: post →
            joinDown emit =
              (emitted names running (Unary.received k pre) item).toList.map (lastTuple names) ∧
            joinNamedDown emit =
              (emitted names running (Unary.received k pre) item).toList.map (lastDict names)) ∧
        (∀ x ∈ events, x.key = k → x.item? = none → x.emit = []) ∧
        (names ≠ [] → ∃ segments : List (List (N × Py A)), Unary.received k events =
            segments.flatten ++ sinceEmission names (Unary.received k events) ∧
          (∀ segment ∈ segments, Complete names segment ∧ ¬ Complete names segment.dropLast) ∧
          ¬ Complete names (sinceEmission names (Unary.received k events))) := by
  obtain ⟨s, events, hr, hload, hlives, hdelivered, hgiven⟩ :=
    Unary.run_lives (join names running) resumeEpoch has hloads
  -- an item that is given to a logic was delivered, and has the name of a side
  have hname : ∀ x ∈ events, ∀ p, x.item? = some p → p.2.1 ∈ names := by
    intro x hx p hp
    have hmem : p ∈ Unary.givenIn x.epoch events :=
      List.mem_filterMap.mpr ⟨x, List.mem_filter.mpr ⟨hx, by simp⟩, hp⟩
    have hside : p ∈ joinNameMerge names (sides x.epoch) := by
      rw [← hsides, hdelivered]
      exact List.mem_append_left _ hmem
    obtain ⟨side, -, rfl⟩ := List.mem_map.mp hside
    exact List.getElem_mem _
  refine ⟨s, events, hr, hgiven, fun k => ?_⟩
  have hjoined := joined_of_keyRun hnames (hlives k) fun x hx => ⟨hload x hx, hname x hx⟩
  refine ⟨fun pre e item emit isComplete post hsplit => ?_, hjoined.other,
    fun hne => exists_segments hne (Unary.received k events)⟩
  have hemits := hjoined.onItem pre e item emit isComplete post hsplit
  exact ⟨joinDown_eq hemits, joinNamedDown_eq hnames hemits⟩

/-- A key's items of two sides: twice the first side, and `None` on the second. -/
def twoSides : List (Activation Nat (String × Py Nat) (JoinState String (Py Nat))) :=
  [Unary.keySeven 0 [("0", some 1), ("0", some 2)], Unary.keySeven 1 [("1", none), ("1", some 3)]]

theorem join_segments_twoSides :
    Unary.Schedule (some 0) (some 0) twoSides ∧
    ∃ s events, Runs.run (Unary.activate (join (sideNames 2) false) 0) Unary.init twoSides =
        some (s, events) ∧
      ∀ pre e item emit isComplete post,
        events = pre ++ .onItem e 7 item emit isComplete :: post →
          joinDown emit = (emitted (sideNames 2) false (Unary.received 7 pre) item).toList.map
            (lastTuple (sideNames 2)) := by
  have has : Unary.Schedule (some 0) (some 0) twoSides :=
    Unary.schedule_keySeven (some 0)
      [(0, [("0", some 1), ("0", some 2)]), (1, [("1", none), ("1", some 3)])]
  have hloads : ∀ a ∈ twoSides, a.loads = [] := by
    intro a ha
    simp only [twoSides, List.mem_cons, List.not_mem_nil, or_false] at ha
    rcases ha with rfl | rfl
    · rfl
    · rfl
  let sides : Nat → List (Nat × Fin (sideNames 2).length × Py Nat) := fun e =>
    if e = 0 then [(7, ⟨0, by decide⟩, some 1), (7, ⟨0, by decide⟩, some 2),
      (7, ⟨1, by decide⟩, none), (7, ⟨1, by decide⟩, some 3)]
    else []
  have hsides : ∀ e, Unary.delivered twoSides e = joinNameMerge (sideNames 2) (sides e) := by
    intro e
    by_cases he : e = 0
    · subst he
      decide +kernel
    · have hnone : Keyed.valuesOf e (twoSides.flatMap fun a => a.items) = [] := by
        refine Keyed.valuesOf_eq_nil fun hm => he ?_
        simpa [twoSides, Unary.keySeven] using hm
      have hside : sides e = [] := if_neg he
      rw [Unary.delivered, hnone, hside]
      rfl
  obtain ⟨s, events, hr, -, h⟩ :=
    join_segments (nodup_sideNames 2) false 0 has hloads hsides
  exact ⟨has, s, events, hr, fun pre e item emit isComplete post hsplit =>
    ((h 7).1 pre e item emit isComplete post hsplit).1⟩

end Join
end Bytewax
