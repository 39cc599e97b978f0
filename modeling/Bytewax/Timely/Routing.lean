import Bytewax.Timely.Tables

/-!
# Bytewax.Timely.Routing — the `partition` and `route` operators

`partition` labels key-value pairs with one of the partitions that have been announced in epochs
before, and `route` labels partitioned pairs with the worker that has been made primary for their
partition in an epoch before.
-/

namespace Bytewax

open Std (TreeMap TreeSet)

namespace EpochOp

variable {P K V W : Type} [LinearOrder P]

/-- `partition`: `assign` is the partition function, and the updates are the known partitions. -/
def partition (assign : K → Nat) :
    EpochOp (K × V) (List (K × V)) P (TreeSet P) (Nat × P × K × V) where
  init := ∅
  push := extendBuffer
  use epoch known items :=
    if known.isEmpty then none
    else do
      let len := known.size
      let partd ← items.mapM fun (key, value) => do
        let wrappedIdx := assign key % len
        let part ← known.toList[wrappedIdx]?
        return (part, key, value)
      return (known, partd.map (Prod.mk epoch))
  close _ known parts := some (known.insertMany parts, [])

/-- `route`: the updates are primary assignments. -/
def route : EpochOp (P × K × V) (List (P × K × V)) (P × W) (TreeMap P W) (Nat × W × P × K × V) where
  init := ∅
  push := extendBuffer
  use epoch routingMap items :=
    if routingMap.isEmpty then none
    else do
      let routed ← items.mapM fun keyValue => do
        let worker ← routingMap[keyValue.1]?
        return (worker, keyValue)
      return (routingMap, routed.map (Prod.mk epoch))
  close _ routingMap routes :=
    some (routes.foldl (fun routingMap (part, worker) => routingMap.insert part worker) routingMap,
      [])

variable {assign : K → Nat} {e : Nat}

/-! ### Partitions -/

/-- The partition of a key among those that have been announced: they are sorted, and the index is
wrapped. -/
def partOf (assign : K → Nat) (announced : List P) (key : K) : Option P :=
  let parts := (TreeSet.ofList announced).toList
  parts[assign key % parts.length]?

theorem partOf_isSome (assign : K → Nat) {announced : List P} (h : announced ≠ []) (key : K) :
    ∃ part ∈ announced, partOf assign announced key = some part := by
  have hmem : ∀ p, p ∈ (TreeSet.ofList announced).toList ↔ p ∈ announced := fun p => by
    rw [TreeSet.mem_toList, TreeSet.mem_ofList, List.contains_iff_mem]
  have hne : (TreeSet.ofList announced).toList ≠ [] := by
    obtain ⟨p, hp⟩ := List.exists_mem_of_ne_nil _ h
    exact List.ne_nil_of_mem ((hmem p).mpr hp)
  have hlt : assign key % (TreeSet.ofList announced).toList.length <
      (TreeSet.ofList announced).toList.length := Nat.mod_lt _ (List.length_pos_iff.mpr hne)
  refine ⟨_, (hmem _).mp (List.getElem_mem hlt), ?_⟩
  exact List.getElem?_eq_getElem hlt

section

variable {as : List (EpochActivation (K × V) P)}

/-- The known partitions are those that have been announced in epochs before. -/
theorem known_equiv (assign : K → Nat) (as : List (EpochActivation (K × V) P)) (e : Nat) :
    ((partition assign).table TreeSet.insertMany as e).Equiv
      (TreeSet.ofList (updatesBefore as e)) := by
  have hmem : ∀ e p, p ∈ (partition assign).table TreeSet.insertMany as e ↔
      p ∈ updatesBefore as e := by
    intro e p
    induction e with
    | zero => simp [table, partition, updatesBefore]
    | succ e ih =>
      rw [table_succ, TreeSet.mem_insertMany_list, ih, List.contains_iff_mem, updatesBefore_succ,
        List.mem_append]
  refine TreeSet.Equiv.of_forall_contains_eq fun p => ?_
  rw [Bool.eq_iff_iff, TreeSet.contains_iff_mem, TreeSet.contains_iff_mem, hmem,
    TreeSet.mem_ofList, List.contains_iff_mem]

/-- One item, with the partitions known before its epoch. -/
def partitioned (assign : K → Nat) (known : TreeSet P) (item : K × V) : Option (P × K × V) := do
  let part ← known.toList[assign item.1 % known.size]?
  return (part, item)

theorem partition_use {known : TreeSet P} {items : List (K × V)} {partd : List (P × K × V)}
    (hne : known.isEmpty = false) (h : items.mapM (partitioned assign known) = some partd) :
    (partition assign).use e known items = some (known, partd.map (Prod.mk e)) := by
  show (if known.isEmpty = true then none
    else Option.bind (items.mapM (partitioned assign known)) _) = _
  rw [hne, h]
  rfl

theorem partition_reads (assign : K → Nat) :
    (partition assign : EpochOp (K × V) (List (K × V)) P (TreeSet P) _).Reads TreeSet.insertMany
      (partitioned assign) where
  push := rfl
  use {e d xs d' o} h := by
    simp only [partition] at h
    split at h
    · cases h
    · obtain ⟨ys, hys, h⟩ := Option.bind_eq_some_iff.mp h
      cases h
      exact ⟨rfl, ys, hys, rfl⟩
  close e d us := rfl
  apply_nil d := rfl

/-- **Items are partitioned among the partitions announced in epochs before**, however items,
announcements and frontiers arrive. -/
theorem partition_run (assign : K → Nat) (has : EpochSchedule as)
    (hknown : ∀ e, HasItems as e → updatesBefore as e ≠ []) :
    ∃ s o, Runs.run (partition assign).activate (partition assign).start as = some (s, o) ∧
      Sends as (fun e => (itemsAt as e).mapM fun item =>
        (partOf assign (updatesBefore as e) item.1).map fun part => (part, item)) o := by
  have hlook : ∀ e (item : K × V),
      partitioned assign ((partition assign).table TreeSet.insertMany as e) item =
        (partOf assign (updatesBefore as e) item.1).map fun part => (part, item) := by
    intro e item
    have heq := known_equiv assign as e
    rw [partitioned, partOf, heq.toList_eq, heq.size_eq, TreeSet.length_toList]
    exact Option.map_eq_bind.symm
  have hemits : (fun e => (itemsAt as e).mapM fun item =>
      (partOf assign (updatesBefore as e) item.1).map fun part => (part, item)) =
        (partition assign).emitsAt TreeSet.insertMany (partitioned assign) as := by
    funext e
    exact congrArg (fun f => (itemsAt as e).mapM f) (funext fun item => (hlook e item).symm)
  rw [hemits]
  refine (partition_reads assign).run has fun e xs hhas _ => ?_
  have hsome : ∀ item ∈ xs, (partitioned assign
      ((partition assign).table TreeSet.insertMany as e) item).isSome := by
    intro item _
    obtain ⟨part, -, hpart⟩ := partOf_isSome assign (hknown e hhas) item.1
    rw [hlook, hpart]
    rfl
  obtain ⟨ys, hys⟩ := Option.isSome_iff_exists.mp (MapM.isSome_iff.mpr hsome)
  have hne : ((partition assign).table TreeSet.insertMany as e).isEmpty = false := by
    rw [(known_equiv assign as e).isEmpty_eq]
    simpa using hknown e hhas
  rw [partition_use hne hys]
  rfl

end

/-! ### Routes -/

/-- The worker that a partition was assigned to last. -/
def lastAssigned (routes : List (P × W)) (part : P) : Option W := routes.reverse.lookup part

theorem lastAssigned_isSome {routes : List (P × W)} {part : P} :
    (lastAssigned routes part).isSome ↔ ∃ worker, (part, worker) ∈ routes := by
  rw [lastAssigned, Option.isSome_iff_ne_none, ne_eq, List.lookup_eq_none_iff]
  constructor
  · intro h
    by_contra hnone
    refine h fun p hp => ?_
    simp only [bne_iff_ne, ne_eq]
    rintro rfl
    exact hnone ⟨p.2, List.mem_reverse.mp hp⟩
  · rintro ⟨worker, hmem⟩ hall
    have hne := hall _ (List.mem_reverse.mpr hmem)
    simp at hne

theorem lastAssigned_append {routes routes' : List (P × W)} {part : P} :
    lastAssigned (routes ++ routes') part =
      (lastAssigned routes' part).or (lastAssigned routes part) := by
  rw [lastAssigned, List.reverse_append, List.lookup_append]
  rfl

theorem lastAssigned_eq_none {routes : List (P × W)} {part : P}
    (h : part ∉ routes.map Prod.fst) : lastAssigned routes part = none := by
  rw [← Option.not_isSome_iff_eq_none, lastAssigned_isSome]
  rintro ⟨w, hw⟩
  exact h (List.mem_map.mpr ⟨_, hw, rfl⟩)

theorem mem_of_lastAssigned {routes : List (P × W)} {part : P} {worker : W}
    (h : lastAssigned routes part = some worker) : (part, worker) ∈ routes := by
  obtain ⟨pre, post, heq, -⟩ := List.lookup_eq_some_iff.mp h
  exact List.mem_reverse.mp (heq ▸ List.mem_append_right _ List.mem_cons_self)

theorem lastAssigned_of_mem {routes : List (P × W)} {part : P} {worker : W}
    (hnodup : (routes.map Prod.fst).Nodup) (h : (part, worker) ∈ routes) :
    lastAssigned routes part = some worker := by
  obtain ⟨w, hw⟩ := Option.isSome_iff_exists.mp (lastAssigned_isSome.mpr ⟨worker, h⟩)
  have hone := List.inj_on_of_nodup_map hnodup (mem_of_lastAssigned hw) h rfl
  rw [hw, (Prod.mk.inj hone).2]

/-- The loop over the assignments of an epoch. -/
def assignAll (routingMap : TreeMap P W) (routes : List (P × W)) : TreeMap P W :=
  routes.foldl (fun routingMap (part, worker) => routingMap.insert part worker) routingMap

theorem getElem?_assignAll (routes : List (P × W)) (part : P) :
    (assignAll ∅ routes)[part]? = lastAssigned routes part := by
  induction routes using List.reverseRecOn with
  | nil => rfl
  | append_singleton routes route ih =>
    obtain ⟨p, w⟩ := route
    have hlast : assignAll ∅ (routes ++ [(p, w)]) = (assignAll ∅ routes).insert p w := by
      simp [assignAll]
    rw [hlast, TreeMap.getElem?_insert, lastAssigned, List.reverse_append]
    show _ = List.lookup part ((p, w) :: routes.reverse)
    rw [List.lookup_cons]
    by_cases hp : p = part
    · simp [hp]
    · have hne : (part == p) = false := beq_eq_false_iff_ne.mpr (Ne.symm hp)
      rw [hne]
      simpa [hp, lastAssigned] using ih

section

variable {as : List (EpochActivation (P × K × V) (P × W))}

theorem route_table (as : List (EpochActivation (P × K × V) (P × W))) (e : Nat) :
    route.table assignAll as e = assignAll ∅ (updatesBefore as e) := by
  induction e with
  | zero => rfl
  | succ e ih =>
    rw [table_succ, ih, updatesBefore_succ, assignAll, assignAll, assignAll, List.foldl_append]

/-- One item, with the routes of the epochs before. -/
def routed (routingMap : TreeMap P W) (item : P × K × V) : Option (W × P × K × V) := do
  let worker ← routingMap[item.1]?
  return (worker, item)

theorem route_use {routingMap : TreeMap P W} {items : List (P × K × V)}
    {out : List (W × P × K × V)} (hne : routingMap.isEmpty = false)
    (h : items.mapM (routed routingMap) = some out) :
    route.use e routingMap items = some (routingMap, out.map (Prod.mk e)) := by
  show (if routingMap.isEmpty = true then none
    else Option.bind (items.mapM (routed routingMap)) _) = _
  rw [hne, h]
  rfl

theorem route_reads :
    (route : EpochOp (P × K × V) _ (P × W) (TreeMap P W) _).Reads assignAll routed where
  push := rfl
  use {e d xs d' o} h := by
    simp only [route] at h
    split at h
    · cases h
    · obtain ⟨ys, hys, h⟩ := Option.bind_eq_some_iff.mp h
      cases h
      exact ⟨rfl, ys, hys, rfl⟩
  close e d us := rfl
  apply_nil d := rfl

/-- **Items are routed by the assignments of the epochs before**, however items, assignments and
frontiers arrive. -/
theorem route_run (has : EpochSchedule as)
    (hroutes : ∀ e, HasItems as e → updatesBefore as e ≠ [] ∧
      ∀ item ∈ itemsAt as e, ∃ worker, (item.1, worker) ∈ updatesBefore as e) :
    ∃ s o, Runs.run route.activate route.start as = some (s, o) ∧
      Sends as (fun e => (itemsAt as e).mapM fun item =>
        (lastAssigned (updatesBefore as e) item.1).map fun worker => (worker, item)) o := by
  have hlook : ∀ e (item : P × K × V), routed (route.table assignAll as e) item =
      (lastAssigned (updatesBefore as e) item.1).map fun worker => (worker, item) := by
    intro e item
    rw [routed, route_table, getElem?_assignAll]
    exact Option.map_eq_bind.symm
  have hemits : (fun e => (itemsAt as e).mapM fun item =>
      (lastAssigned (updatesBefore as e) item.1).map fun worker => (worker, item)) =
        route.emitsAt assignAll routed as := by
    funext e
    exact congrArg (fun f => (itemsAt as e).mapM f) (funext fun item => (hlook e item).symm)
  rw [hemits]
  refine route_reads.run has fun e xs hhas hsub => ?_
  obtain ⟨hne, hall⟩ := hroutes e hhas
  have hsome : ∀ item ∈ xs, (routed (route.table assignAll as e) item).isSome := by
    intro item hitem
    rw [hlook, Option.isSome_map, lastAssigned_isSome]
    exact hall item (hsub hitem)
  obtain ⟨out, hout⟩ := Option.isSome_iff_exists.mp (MapM.isSome_iff.mpr hsome)
  have hfull : (route.table assignAll as e).isEmpty = false := by
    obtain ⟨route₀, hmem⟩ := List.exists_mem_of_ne_nil _ hne
    have hin : route₀.1 ∈ route.table assignAll as e := by
      rw [← TreeMap.isSome_getElem?_iff_mem, route_table, getElem?_assignAll, lastAssigned_isSome]
      exact ⟨route₀.2, hmem⟩
    exact TreeMap.isEmpty_eq_false_iff_exists_mem.mpr ⟨_, hin⟩
  rw [route_use hfull hout]
  rfl

end

end EpochOp
end Bytewax
