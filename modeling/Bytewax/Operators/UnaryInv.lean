import Bytewax.Lib.Keyed
import Bytewax.Operators.Unary
import Mathlib.Data.Nat.Basic

/-!
# Bytewax.Operators.UnaryInv — schedules, and why the operator does not panic

A schedule is a list of activations that Timely may produce: frontiers do not go back, and a message
is not behind the frontier of its input at the activation before.  In every schedule the epochs that
are processed are not behind the capabilities, and every key with a notification has its logic
(`Ready`), so `activate` never panics (`run_activate`).
-/

namespace Bytewax

open Std (TreeMap TreeSet)

/-! ### Frontiers -/

namespace Frontier

variable {f g h : Frontier} {e e' : Nat}

theorem Le.refl (f : Frontier) : f.Le f := fun t ht => ⟨t, ht, le_rfl⟩

theorem Admits.mono (hfg : f.Le g) (he : g.Admits e) : f.Admits e := by
  obtain ⟨t, ht, hte⟩ := he
  obtain ⟨s, hs, hst⟩ := hfg t ht
  exact ⟨s, hs, le_trans hst hte⟩

theorem not_isClosed : ¬ f.IsClosed e ↔ f.Admits e := by
  cases f with
  | none => simp [Admits]
  | some t => simp [Admits]

theorem both_le_left (f g : Frontier) : (f.both g).Le f := by
  intro t ht
  cases f with
  | none => exact absurd ht (by simp)
  | some a =>
    obtain rfl : a = t := Option.some.inj ht
    cases g with
    | none => exact ⟨a, rfl, le_rfl⟩
    | some b => exact ⟨min a b, rfl, min_le_left a b⟩

theorem both_le_right (f g : Frontier) : (f.both g).Le g := by
  intro t ht
  cases g with
  | none => exact absurd ht (by simp)
  | some b =>
    obtain rfl : b = t := Option.some.inj ht
    cases f with
    | none => exact ⟨b, rfl, le_rfl⟩
    | some a => exact ⟨min a b, rfl, min_le_right a b⟩

theorem both_mono {f' g' : Frontier} (hf : f.Le f') (hg : g.Le g') :
    (f.both g).Le (f'.both g') := by
  intro t ht
  have hcase : t ∈ f' ∨ t ∈ g' := by
    cases f' with
    | none => exact .inr ht
    | some a =>
      cases g' with
      | none => exact .inl ht
      | some b =>
        obtain rfl : min a b = t := Option.some.inj ht
        rcases le_total a b with hab | hab
        · exact .inl (by simp [hab])
        · exact .inr (by simp [hab])
  rcases hcase with ht | ht
  · obtain ⟨s, hs, hst⟩ := hf t ht
    obtain ⟨u, hu, hus⟩ := both_le_left f g s hs
    exact ⟨u, hu, le_trans hus hst⟩
  · obtain ⟨s, hs, hst⟩ := hg t ht
    obtain ⟨u, hu, hus⟩ := both_le_right f g s hs
    exact ⟨u, hu, le_trans hus hst⟩

end Frontier

namespace Unary

variable {K V W S L : Type} [LinearOrder K]

/-! ### Schedules -/

/-- The activation can come after the inputs had these frontiers. -/
structure Follows (itemsFrontier loadsFrontier : Frontier) (a : Activation K V S) : Prop where
  items : ∀ b ∈ a.items, itemsFrontier.Admits b.1
  loads : ∀ b ∈ a.loads, loadsFrontier.Admits b.1
  itemsFrontier_le : itemsFrontier.Le a.itemsFrontier
  loadsFrontier_le : loadsFrontier.Le a.loadsFrontier

/-- A list of activations that can come after the inputs had these frontiers. -/
def Schedule : Frontier → Frontier → List (Activation K V S) → Prop
  | _, _, [] => True
  | f, g, a :: as => Follows f g a ∧ Schedule a.itemsFrontier a.loadsFrontier as

/-! ### Buffers and the epochs to process -/

theorem getD_extend {α : Type} (e : Nat) (batches : List (Nat × List α)) :
    ∀ buffer : TreeMap Nat (List α), (extend buffer batches).getD e [] =
      buffer.getD e [] ++ (Keyed.valuesOf e batches).flatten := by
  induction batches with
  | nil => intro buffer; simp [extend]
  | cons b batches ih =>
    intro buffer
    show (extend (buffer.insert b.1 (buffer.getD b.1 [] ++ b.2)) batches).getD e [] = _
    rw [ih, TreeMap.getD_insert, Keyed.valuesOf_cons]
    by_cases hb : b.1 = e
    · subst hb
      simp
    · simp [hb]

theorem mem_extend {α : Type} {e : Nat} {batches : List (Nat × List α)} :
    ∀ {buffer : TreeMap Nat (List α)}, e ∈ extend buffer batches ↔
      e ∈ buffer ∨ ∃ b ∈ batches, b.1 = e := by
  induction batches with
  | nil => intro buffer; simp [extend]
  | cons b batches ih =>
    intro buffer
    show e ∈ extend (buffer.insert b.1 (buffer.getD b.1 [] ++ b.2)) batches ↔ _
    rw [ih, TreeMap.mem_insert]
    simp only [Std.LawfulEqCmp.compare_eq_iff_eq, List.mem_cons, exists_eq_or_imp]
    tauto

omit [LinearOrder K] in
theorem mem_processEpochs {resumeEpoch last : Nat} {f : Frontier}
    {inbuf : TreeMap Nat (List (K × V))} {loadsInbuf : TreeMap Nat (List (K × StateChange S))}
    {e : Nat} : e ∈ processEpochs resumeEpoch last f inbuf loadsInbuf ↔
      ((e = last ∨ e ∈ inbuf ∨ e ∈ loadsInbuf) ∧ f.IsClosed e) ∨
        (resumeEpoch ≤ f.getD last ∧ e = f.getD last) := by
  have hbase : e ∈ ((((TreeSet.empty : TreeSet Nat).insert last).insertMany
        inbuf.keys).insertMany loadsInbuf.keys).filter (fun e => f.IsClosed e) ↔
      (e = last ∨ e ∈ inbuf ∨ e ∈ loadsInbuf) ∧ f.IsClosed e := by
    rw [← TreeSet.mem_toList, TreeSet.toList_filter, List.mem_filter, TreeSet.mem_toList,
      TreeSet.mem_insertMany_list, TreeSet.mem_insertMany_list, TreeSet.mem_insert]
    simp only [Std.LawfulEqCmp.compare_eq_iff_eq]
    simp [eq_comm, or_assoc]
  unfold processEpochs
  simp only [TreeSet.mem_toList]
  split_ifs with h
  · rw [TreeSet.mem_insert, hbase, Std.LawfulEqCmp.compare_eq_iff_eq]
    simp only [ge_iff_le] at h
    simp [h, or_comm, eq_comm]
  · rw [hbase]
    simp only [ge_iff_le] at h
    simp [h]

omit [LinearOrder K] in
theorem pairwise_processEpochs {resumeEpoch last : Nat} {f : Frontier}
    {inbuf : TreeMap Nat (List (K × V))} {loadsInbuf : TreeMap Nat (List (K × StateChange S))} :
    (processEpochs resumeEpoch last f inbuf loadsInbuf).Pairwise (· < ·) := by
  unfold processEpochs
  simp only
  exact (TreeSet.ordered_toList).imp fun h => Nat.compare_eq_lt.mp h

/-! ### Every key with a notification has its logic -/

/-- What the `unwrap` of the notification loop rests on. -/
def Backed (s : UnaryKeys K L) : Prop := ∀ k ∈ s.schedCache, k ∈ s.logics

variable {logic : UnaryLogic V W S L} {now : Int} {f : Frontier} {e : Nat} {s : UnaryKeys K L}

theorem Backed.erase (h : Backed s) (k : K) : Backed { s with
    logics := s.logics.erase k, schedCache := s.schedCache.erase k } := by
  intro k' hk'
  simp only [TreeMap.mem_erase] at hk' ⊢
  exact ⟨hk'.1, h k' hk'.2⟩

theorem Backed.insert (h : Backed s) (k : K) (l : L) :
    Backed { s with logics := s.logics.insert k l } := by
  intro k' hk'
  simp only [TreeMap.mem_insert]
  exact .inr (h k' hk')

theorem Backed.removeKeys (keys : List K) (h : Backed s) : Backed (removeKeys s keys) := by
  induction keys generalizing s with
  | nil => exact h
  | cons k keys ih => exact ih (h.erase k)

variable (logic now e) in
theorem itemStep_backed (item : K × V) (h : Backed s) :
    ∃ s₁ o₁, itemStep logic now e s item = some (s₁, o₁) ∧ Backed s₁ := by
  rcases hl : logic.onItem (s.logics.getD item.1 (logic.builder now none)) now item.2 with
    ⟨l, emit, isComplete⟩
  rw [itemStep, hl]
  cases isComplete with
  | discard => exact ⟨_, _, rfl, h.erase item.1⟩
  | retain => exact ⟨_, _, rfl, h.insert item.1 l⟩

theorem run_itemStep_backed {items : List (K × V)} {s₁ : UnaryKeys K L}
    {o : List (UnaryEvent K V W S)} (h : Backed s)
    (hr : Runs.run (itemStep logic now e) s items = some (s₁, o)) : Backed s₁ := by
  refine Runs.run_induct (Q := fun _ _ => True) (fun t item t₁ o₁ ht _ hs => ?_) h
    (Runs.along_true _ _) hr
  obtain ⟨t₂, o₂, hs', ht₂⟩ := itemStep_backed logic now e item ht
  rw [hs'] at hs
  simp only [Option.some.injEq, Prod.mk.injEq] at hs
  exact hs.1 ▸ ht₂

variable (logic e) in
/-- A due notification is taken; the entries that wait behind it keep their logics. -/
theorem notifyStep_backed {entry : K × Int} {rest : List (K × Int)}
    (hnodup : (entry :: rest).Pairwise fun x y => x.1 ≠ y.1)
    (hdue : ∀ x ∈ entry :: rest, x.1 ∈ s.schedCache) (h : Backed s) :
    ∃ s₁ o₁, notifyStep logic e s entry = some (s₁, o₁) ∧ Backed s₁ ∧
      ∀ x ∈ rest, x.1 ∈ s₁.schedCache := by
  obtain ⟨l, hl⟩ : ∃ l, s.logics[entry.1]? = some l :=
    Option.isSome_iff_exists.mp (TreeMap.isSome_getElem?_iff_mem.mpr (h _ (hdue entry (by simp))))
  have hrest : ∀ x ∈ rest, x.1 ∈ s.schedCache.erase entry.1 := by
    intro x hx
    rw [TreeMap.mem_erase]
    refine ⟨fun hc => ?_, hdue x (List.mem_cons_of_mem _ hx)⟩
    exact (List.pairwise_cons.mp hnodup).1 x hx (Std.LawfulEqCmp.compare_eq_iff_eq.mp hc)
  rcases hn : logic.onNotify l entry.2 with ⟨l', emit, isComplete⟩
  rw [notifyStep, hl, Option.bind_eq_bind, Option.bind_some, hn]
  cases isComplete with
  | discard => exact ⟨_, _, rfl, h.erase entry.1, hrest⟩
  | retain =>
    refine ⟨_, _, rfl, ?_, hrest⟩
    intro k hk
    exact h.insert entry.1 l' k (TreeMap.mem_erase.mp hk).2

theorem pairwise_notifyKeys (s : UnaryKeys K L) :
    (notifyKeys now s).Pairwise fun x y => x.1 ≠ y.1 := by
  refine List.Pairwise.filter _ (TreeMap.distinct_keys_toList.imp fun h he => h ?_)
  simp [he]

theorem mem_notifyKeys {entry : K × Int} :
    entry ∈ notifyKeys now s ↔ s.schedCache[entry.1]? = some entry.2 ∧ entry.2 ≤ now := by
  rw [notifyKeys, List.mem_filter, TreeMap.mem_toList_iff_getElem?_eq_some]
  simp

variable (logic now e) in
theorem run_notifyStep_backed (h : Backed s) :
    ∃ s₁ o₁, Runs.run (notifyStep logic e) s (notifyKeys now s) = some (s₁, o₁) ∧ Backed s₁ := by
  have hdue : ∀ x ∈ notifyKeys now s, x.1 ∈ s.schedCache := fun x hx =>
    TreeMap.isSome_getElem?_iff_mem.mp (by rw [(mem_notifyKeys.mp hx).1]; rfl)
  obtain ⟨s₁, o₁, hr, hb, -⟩ := Runs.run_total_rest (notifyStep logic e)
    (P := fun s (rest : List (K × Int)) => Backed s ∧ (rest.Pairwise fun x y => x.1 ≠ y.1) ∧
      ∀ x ∈ rest, x.1 ∈ s.schedCache)
    (fun s entry rest hP => by
      obtain ⟨s₁, o₁, hs, hb, hd⟩ := notifyStep_backed logic e
        hP.2.1 hP.2.2 hP.1
      exact ⟨s₁, o₁, hs, hb, (List.pairwise_cons.mp hP.2.1).2, hd⟩)
    ⟨h, pairwise_notifyKeys s, hdue⟩
  exact ⟨s₁, o₁, hr, hb⟩

variable (logic e) in
theorem eofPhase_backed (eof : Bool) (h : Backed s) :
    ∃ s₁ o₁, eofPhase logic eof e s = some (s₁, o₁) ∧ Backed s₁ := by
  cases eof with
  | false => exact ⟨s, [], rfl, h⟩
  | true =>
    obtain ⟨s₁, o₁, hr, hb⟩ := Runs.run_total (eofStep logic e) s.logics.toList
      (P := Backed) (Q := fun _ _ => True)
      (fun s entry hb _ => ⟨_, _, rfl, hb.insert entry.1 _⟩) h (Runs.along_true _ _)
    refine ⟨Unary.removeKeys s₁ (o₁.filterMap discardedKey), o₁, ?_, hb.removeKeys _⟩
    simp [eofPhase, hr]

theorem mem_noteSched {logics : TreeMap K L} {cache : TreeMap K Int} {k k' : K}
    (h : k ∈ noteSched logic logics cache k') : k ∈ cache ∨ k ∈ logics := by
  unfold noteSched at h
  split at h
  · rename_i sched hl
    rcases TreeMap.mem_insert.mp h with hk | hk
    · obtain ⟨l, hl', -⟩ := Option.bind_eq_some_iff.mp hl
      rw [← Std.LawfulEqCmp.compare_eq_iff_eq.mp hk]
      exact .inr (TreeMap.isSome_getElem?_iff_mem.mp (by rw [hl']; rfl))
    · exact .inl hk
  · exact .inl h

theorem foldl_noteSched_backed (keys : List K) (h : Backed s) :
    Backed { s with schedCache := keys.foldl (noteSched logic s.logics) s.schedCache } := by
  have key : ∀ (keys : List K) (cache : TreeMap K Int), (∀ k ∈ cache, k ∈ s.logics) →
      ∀ k ∈ keys.foldl (noteSched logic s.logics) cache, k ∈ s.logics := by
    intro keys
    induction keys with
    | nil => exact fun cache hc => hc
    | cons k₀ keys ih =>
      intro cache hc
      exact ih _ fun k hk => (mem_noteSched hk).elim (hc k) id
  exact key _ _ h

theorem updateSched_backed (h : Backed s) : Backed (updateSched logic s) :=
  foldl_noteSched_backed _ h

theorem applyLoad_backed (load : K × StateChange S) (h : Backed s) :
    Backed (applyLoad logic now s load) := by
  obtain ⟨k, change⟩ := load
  cases change with
  | discard => exact h.erase k
  | upsert state =>
    unfold applyLoad
    intro k' hk'
    simp only at hk' ⊢
    rw [TreeMap.mem_insert]
    cases hn : logic.notifyAt (logic.builder now (some state)) with
    | none =>
      rw [hn] at hk'
      exact .inr (h k' hk')
    | some sched =>
      rw [hn] at hk'
      exact (TreeMap.mem_insert.mp hk').imp id (h k')

variable (logic now e) in
theorem callPhases_backed (eof : Bool) (items : List (K × V)) (h : Backed s) :
    ∃ s₁ o₁, callPhases logic now eof e items s = some (s₁, o₁) ∧ Backed s₁ := by
  obtain ⟨s₁, o₁, h₁, hb₁⟩ := Runs.run_total (itemStep logic now e) items
    (P := Backed) (Q := fun _ _ => True) (fun s item hb _ => itemStep_backed logic now e item hb) h
    (Runs.along_true _ _)
  obtain ⟨s₂, o₂, h₂, hb₂⟩ := run_notifyStep_backed logic now e hb₁
  obtain ⟨s₃, o₃, h₃, hb₃⟩ := eofPhase_backed logic e eof hb₂
  refine ⟨updateSched logic s₃, o₁ ++ o₂ ++ o₃, ?_, updateSched_backed hb₃⟩
  simp [callPhases, h₁, h₂, h₃]

variable (logic now e) in
theorem closePhases_backed (loads : List (K × StateChange S)) (h : Backed s) :
    ∃ s₁ o₁, closePhases logic now e loads s = some (s₁, o₁) ∧ Backed s₁ := by
  obtain ⟨s₁, o₁, h₁, hb₁⟩ := Runs.run_total (loadStep logic now e) loads
    (P := Backed) (Q := fun _ _ => True) (s := { s with awokenKeysBuffer := ∅ })
    (fun s load hb _ => ⟨_, _, rfl, applyLoad_backed load hb⟩) h (Runs.along_true _ _)
  refine ⟨s₁, snapshots logic e s ++ o₁, ?_, hb₁⟩
  simp [closePhases, h₁]

/-! ### The operator does not panic -/

variable {s : UnaryState K V S L} {resumeEpoch : Nat}

theorem processEpoch_closed {c : Nat} {keys keys' : UnaryKeys K L}
    {called closed : List (UnaryEvent K V W S)} (hcap : s.cap = some c) (hc : c ≤ e)
    (hcall : callPhases logic now f.isEof e (s.inbuf.getD e []) s.keys = some (keys, called))
    (he : f.IsClosed e)
    (hclose : closePhases logic now e (s.loadsInbuf.getD e []) keys = some (keys', closed)) :
    processEpoch logic now f s e = some ({ s with
      cap := some e
      keys := keys'
      inbuf := s.inbuf.erase e
      loadsInbuf := s.loadsInbuf.erase e }, called ++ closed) := by
  simp [processEpoch, hcap, hcall, he, hclose, Nat.not_lt.mpr hc]

theorem processEpoch_open {c : Nat} {keys : UnaryKeys K L} {called : List (UnaryEvent K V W S)}
    (hcap : s.cap = some c) (hc : c ≤ e)
    (hcall : callPhases logic now f.isEof e (s.inbuf.getD e []) s.keys = some (keys, called))
    (he : ¬ f.IsClosed e) :
    processEpoch logic now f s e =
      some ({ s with cap := some e, keys, inbuf := s.inbuf.erase e }, called) := by
  simp [processEpoch, hcap, hcall, he, Nat.not_lt.mpr hc]

/-- What holds between activations when the frontier of all inputs is `f`. -/
structure Ready (f : Frontier) (s : UnaryState K V S L) : Prop where
  cap_eq_none : s.cap = none ↔ f = none
  cap_le : ∀ c ∈ s.cap, ∀ t ∈ f, c ≤ t
  inbuf : ∀ e ∈ s.inbuf, f.Admits e
  loadsInbuf : ∀ e ∈ s.loadsInbuf, f.Admits e
  backed : Backed s.keys

/-- What holds inside the loop over the epochs, with `rest` still to come. -/
structure Looping (f : Frontier) (s : UnaryState K V S L) (rest : List Nat) : Prop where
  sorted : rest.Pairwise (· < ·)
  rest_le : ∀ e ∈ rest, ∀ t ∈ f, e ≤ t
  cap : ∃ c, s.cap = some c ∧ (∀ e ∈ rest, c ≤ e) ∧ ∀ t ∈ f, c ≤ t
  inbuf : ∀ e ∈ s.inbuf, f.Admits e ∨ e ∈ rest
  loadsInbuf : ∀ e ∈ s.loadsInbuf, f.Admits e ∨ e ∈ rest
  backed : Backed s.keys

theorem mem_erase_looping {α : Type} {rest : List Nat} {buf : TreeMap Nat (List α)}
    (h : ∀ x ∈ buf, f.Admits x ∨ x ∈ e :: rest) :
    ∀ x ∈ buf.erase e, f.Admits x ∨ x ∈ rest := by
  intro x hx
  rw [TreeMap.mem_erase] at hx
  rcases h x hx.2 with ha | ha
  · exact .inl ha
  · rcases List.mem_cons.mp ha with rfl | ha
    · exact absurd (Std.LawfulEqCmp.compare_eq_iff_eq.mpr rfl) hx.1
    · exact .inr ha

variable (logic now) in
/-- The body of the loop does not panic. -/
theorem processEpoch_looping {rest : List Nat} (h : Looping f s (e :: rest)) :
    ∃ s₁ o₁, processEpoch logic now f s e = some (s₁, o₁) ∧ Looping f s₁ rest := by
  obtain ⟨c, hcap, hle, -⟩ := h.cap
  have hce : c ≤ e := hle e (by simp)
  have hsorted := List.pairwise_cons.mp h.sorted
  have hcap' : ∃ c', some e = some c' ∧ (∀ x ∈ rest, c' ≤ x) ∧ ∀ t ∈ f, c' ≤ t :=
    ⟨e, rfl, fun x hx => (hsorted.1 x hx).le, h.rest_le e (by simp)⟩
  have hrest : ∀ x ∈ rest, ∀ t ∈ f, x ≤ t := fun x hx => h.rest_le x (by simp [hx])
  obtain ⟨keys, called, hcall, hb⟩ := callPhases_backed logic now e
    f.isEof (s.inbuf.getD e []) h.backed
  by_cases he : f.IsClosed e
  · obtain ⟨keys', closed, hclose, hb'⟩ := closePhases_backed logic now e
      (s.loadsInbuf.getD e []) hb
    exact ⟨_, _, processEpoch_closed hcap hce hcall he hclose, hsorted.2, hrest, hcap',
      mem_erase_looping h.inbuf, mem_erase_looping h.loadsInbuf, hb'⟩
  · refine ⟨_, _, processEpoch_open hcap hce hcall he, hsorted.2, hrest, hcap',
      mem_erase_looping h.inbuf, fun x hx => ?_, hb⟩
    rcases h.loadsInbuf x hx with ha | ha
    · exact .inl ha
    · rcases List.mem_cons.mp ha with rfl | ha
      · exact .inl (Frontier.not_isClosed.mp he)
      · exact .inr ha

/-- The state after an activation has taken in its messages. -/
def buffered (s : UnaryState K V S L) (a : Activation K V S) : UnaryState K V S L :=
  { s with inbuf := extend s.inbuf a.items, loadsInbuf := extend s.loadsInbuf a.loads }

/-- The epochs of an activation. -/
def epochsOf (resumeEpoch last : Nat) (s : UnaryState K V S L) (a : Activation K V S) :
    List Nat :=
  processEpochs resumeEpoch last a.frontier (buffered s a).inbuf (buffered s a).loadsInbuf

/-- The state after the loop over the epochs, when the activation is over. -/
def finished (resumeEpoch : Nat) (a : Activation K V S) (s : UnaryState K V S L) :
    UnaryState K V S L :=
  { s with
    cap := if a.frontier.isEof then none else s.cap
    initCaps := if a.loadsFrontier.isEof then s.initCaps.map fun _ => resumeEpoch
      else s.initCaps }

theorem activate_none {a : Activation K V S} (hcap : s.cap = none) :
    activate logic resumeEpoch s a = some (s, []) := by
  simp [activate, hcap]

theorem activate_some {a : Activation K V S} {c : Nat} (hcap : s.cap = some c) :
    activate logic resumeEpoch s a =
      (Runs.run (processEpoch logic a.now a.frontier) (buffered s a)
        (epochsOf resumeEpoch c s a)).map fun p => (finished resumeEpoch a p.1, p.2) := by
  obtain ⟨cap, initCaps, keys, inbuf, loadsInbuf⟩ := s
  subst hcap
  show Option.bind (Runs.run (processEpoch logic a.now a.frontier) (buffered _ a)
    (epochsOf resumeEpoch c _ a)) _ = _
  cases Runs.run (processEpoch logic a.now a.frontier) (buffered _ a)
      (epochsOf resumeEpoch c _ a) with
  | none => rfl
  | some p =>
    cases h : a.frontier.isEof with
    | true => simp [finished, h]
    | false => simp [finished, h]

/-- An activation after the end does nothing; another one goes through its epochs. -/
theorem activate_cases {a : Activation K V S} {s₁ : UnaryState K V S L}
    {o : List (UnaryEvent K V W S)} (h : activate logic resumeEpoch s a = some (s₁, o)) :
    (s.cap = none ∧ s₁ = s ∧ o = []) ∨
      ∃ c t, s.cap = some c ∧ Runs.run (processEpoch logic a.now a.frontier) (buffered s a)
        (epochsOf resumeEpoch c s a) = some (t, o) ∧ s₁ = finished resumeEpoch a t := by
  cases hcap : s.cap with
  | none =>
    rw [activate_none hcap] at h
    cases h
    exact .inl ⟨rfl, rfl, rfl⟩
  | some c =>
    rw [activate_some hcap] at h
    obtain ⟨⟨t, p⟩, hr, he⟩ := Option.map_eq_some_iff.mp h
    cases he
    exact .inr ⟨c, t, rfl, hr, rfl⟩

variable (resumeEpoch) in
theorem looping_buffered {a : Activation K V S} {fi fl : Frontier} {c : Nat}
    (h : Ready (fi.both fl) s) (ha : Follows fi fl a) (hcap : s.cap = some c) :
    Looping a.frontier (buffered s a) (epochsOf resumeEpoch c s a) := by
  have hf : (fi.both fl).Le a.frontier :=
    Frontier.both_mono ha.itemsFrontier_le ha.loadsFrontier_le
  have hct : ∀ t ∈ a.frontier, c ≤ t := by
    intro t ht
    obtain ⟨u, hu, hut⟩ := hf t ht
    exact le_trans (h.cap_le c (by simp [hcap]) u hu) hut
  have hbuf : ∀ x, x ∈ (buffered s a).inbuf ∨ x ∈ (buffered s a).loadsInbuf →
      (fi.both fl).Admits x := by
    rintro x (hx | hx)
    · rcases mem_extend.mp hx with hx | ⟨b, hb, rfl⟩
      · exact h.inbuf x hx
      · exact (ha.items b hb).mono (Frontier.both_le_left fi fl)
    · rcases mem_extend.mp hx with hx | ⟨b, hb, rfl⟩
      · exact h.loadsInbuf x hx
      · exact (ha.loads b hb).mono (Frontier.both_le_right fi fl)
  have hmem : ∀ x, x ∈ (buffered s a).inbuf ∨ x ∈ (buffered s a).loadsInbuf →
      a.frontier.Admits x ∨ x ∈ epochsOf resumeEpoch c s a := by
    intro x hx
    by_cases hc : a.frontier.IsClosed x
    · exact .inr (mem_processEpochs.mpr (.inl ⟨.inr hx, hc⟩))
    · exact .inl (Frontier.not_isClosed.mp hc)
  refine ⟨pairwise_processEpochs, ?_, ⟨c, hcap, ?_, hct⟩, fun x hx => hmem x (.inl hx),
    fun x hx => hmem x (.inr hx), h.backed⟩
  · intro x hx t ht
    rcases mem_processEpochs.mp hx with ⟨-, hc⟩ | ⟨-, rfl⟩
    · exact (hc t ht).le
    · rw [Option.mem_def.mp ht, Option.getD_some]
  · intro x hx
    rcases mem_processEpochs.mp hx with ⟨rfl | hx, -⟩ | ⟨-, rfl⟩
    · exact le_rfl
    · obtain ⟨t, ht, htx⟩ := hbuf x hx
      exact le_trans (h.cap_le c (by simp [hcap]) t ht) htx
    · cases hf' : a.frontier with
      | none => exact le_rfl
      | some t => exact hct t hf'

theorem ready_finished {a : Activation K V S} (h : Looping a.frontier s []) :
    Ready a.frontier (finished resumeEpoch a s) := by
  obtain ⟨c, hcap, -, hct⟩ := h.cap
  have hnil : ∀ {x}, a.frontier.Admits x ∨ x ∈ ([] : List Nat) → a.frontier.Admits x := by
    simp
  refine ⟨?_, ?_, fun x hx => hnil (h.inbuf x hx), fun x hx => hnil (h.loadsInbuf x hx),
    h.backed⟩
  · cases hf : a.frontier with
    | none => simp [finished, hf, Frontier.isEof]
    | some t => simp [finished, hf, Frontier.isEof, hcap]
  · intro x hx t ht
    rw [Option.mem_def] at ht
    simp only [finished, ht, Frontier.isEof, hcap] at hx
    obtain rfl : c = x := by simpa using hx
    exact hct t ht

variable (logic resumeEpoch) in
/-- One activation does not panic, and is ready for the next. -/
theorem activate_ready {a : Activation K V S} {fi fl : Frontier} (h : Ready (fi.both fl) s)
    (ha : Follows fi fl a) :
    ∃ s₁ o₁, activate logic resumeEpoch s a = some (s₁, o₁) ∧ Ready a.frontier s₁ := by
  cases hcap : s.cap with
  | none =>
    have hf : (fi.both fl).Le a.frontier :=
      Frontier.both_mono ha.itemsFrontier_le ha.loadsFrontier_le
    have hend : fi.both fl = none := h.cap_eq_none.mp hcap
    rw [hend] at h hf
    have hnone : a.frontier = none := by
      refine Option.eq_none_iff_forall_not_mem.mpr fun t ht => ?_
      obtain ⟨u, hu, -⟩ := hf t ht
      exact absurd hu (by simp)
    exact ⟨s, [], activate_none hcap, hnone ▸ h⟩
  | some c =>
    obtain ⟨s₁, o₁, hr, hl⟩ := Runs.run_total_rest (processEpoch logic a.now a.frontier)
      (P := Looping a.frontier) (fun s e rest hP => processEpoch_looping logic a.now hP)
      (looping_buffered resumeEpoch h ha hcap)
    refine ⟨finished resumeEpoch a s₁, o₁, ?_, ready_finished hl⟩
    rw [activate_some hcap, hr, Option.map_some]

/-- **No schedule makes the operator panic.** -/
theorem run_activate {fi fl : Frontier} {as : List (Activation K V S)}
    (h : Ready (fi.both fl) s) (has : Schedule fi fl as) :
    ∃ s₁ o₁, Runs.run (activate logic resumeEpoch) s as = some (s₁, o₁) := by
  obtain ⟨s₁, o₁, hr, -⟩ := Runs.run_total_rest (activate logic resumeEpoch)
    (P := fun s as => ∃ fi fl, Ready (fi.both fl) s ∧ Schedule fi fl as)
    (fun s a as ⟨fi, fl, hP, hs⟩ => by
      obtain ⟨s₁, o₁, ha, h₁⟩ := activate_ready logic resumeEpoch hP hs.1
      exact ⟨s₁, o₁, ha, a.itemsFrontier, a.loadsFrontier, h₁, hs.2⟩)
    ⟨fi, fl, h, has⟩
  exact ⟨s₁, o₁, hr⟩

theorem ready_init : Ready (some 0) (init : UnaryState K V S L) := by
  refine ⟨?_, ?_, ?_, ?_, ?_⟩ <;> simp [init, Backed]

end Unary
end Bytewax
