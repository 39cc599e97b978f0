import Bytewax.Operators.UnaryNotify

/-!
# Bytewax.Operators.UnaryBacked — a due key always has its logic

`logics` and `sched_cache` are changed in every loop of an epoch, and the due keys are collected
before the first of them is notified.  In every state that the operator reaches, between activations
and at each turn of each loop, a key of the cache has its logic; and so has every due key that still
waits for its turn.
-/

namespace Bytewax

open Std (TreeMap TreeSet)

namespace Unary

variable {K V W S L : Type} [LinearOrder K]

/-! ### The states of an epoch -/

section

variable (logic : UnaryLogic V W S L)

/-- The states of the keys in the course of an epoch, one for each turn of each loop, with the due
notifications that still wait for their turn. -/
inductive EpochVisits (now : Int) (f : Frontier) (s : UnaryState K V S L) (e : Nat) :
    UnaryKeys K L → List (K × Int) → Prop
  | items {pre t o} (hpre : pre <+: s.inbuf.getD e [])
      (h : Runs.run (itemStep logic now e) s.keys pre = some (t, o)) :
      EpochVisits now f s e t []
  | notifies {t₁ o₁ pre due t o}
      (h₁ : Runs.run (itemStep logic now e) s.keys (s.inbuf.getD e []) = some (t₁, o₁))
      (hsplit : notifyKeys now t₁ = pre ++ due)
      (h : Runs.run (notifyStep (V := V) logic e) t₁ pre = some (t, o)) :
      EpochVisits now f s e t due
  | eofs {t₁ o₁ t₂ o₂ pre t o}
      (h₁ : Runs.run (itemStep logic now e) s.keys (s.inbuf.getD e []) = some (t₁, o₁))
      (h₂ : Runs.run (notifyStep (V := V) logic e) t₁ (notifyKeys now t₁) = some (t₂, o₂))
      (heof : f.isEof = true) (hpre : pre <+: t₂.logics.toList)
      (h : Runs.run (eofStep (V := V) logic e) t₂ pre = some (t, o)) :
      EpochVisits now f s e t []
  | removals {t₁ o₁ t₂ o₂ t₃ o₃ pre}
      (h₁ : Runs.run (itemStep logic now e) s.keys (s.inbuf.getD e []) = some (t₁, o₁))
      (h₂ : Runs.run (notifyStep (V := V) logic e) t₁ (notifyKeys now t₁) = some (t₂, o₂))
      (heof : f.isEof = true)
      (h₃ : Runs.run (eofStep (V := V) logic e) t₂ t₂.logics.toList = some (t₃, o₃))
      (hpre : pre <+: o₃.filterMap discardedKey) :
      EpochVisits now f s e (removeKeys t₃ pre) []
  | scheds {t₁ o₁ t₂ o₂ t₃ o₃ pre}
      (h₁ : Runs.run (itemStep logic now e) s.keys (s.inbuf.getD e []) = some (t₁, o₁))
      (h₂ : Runs.run (notifyStep (V := V) logic e) t₁ (notifyKeys now t₁) = some (t₂, o₂))
      (h₃ : eofPhase (V := V) logic f.isEof e t₂ = some (t₃, o₃))
      (hpre : pre <+: t₃.awokenKeysBuffer.toList) :
      EpochVisits now f s e
        { t₃ with schedCache := pre.foldl (noteSched logic t₃.logics) t₃.schedCache } []
  | loads {t o pre t' o'}
      (h : callPhases logic now f.isEof e (s.inbuf.getD e []) s.keys = some (t, o))
      (he : f.IsClosed e) (hpre : pre <+: s.loadsInbuf.getD e [])
      (h' : Runs.run (loadStep (V := V) logic now e) { t with awokenKeysBuffer := ∅ } pre =
        some (t', o')) :
      EpochVisits now f s e t' []

/-- The states of the keys that the operator reaches in any list of activations. -/
inductive Reached (resumeEpoch : Nat) : UnaryKeys K L → List (K × Int) → Prop
  | between {as s o} (h : Runs.run (activate logic resumeEpoch) init as = some (s, o)) :
      Reached resumeEpoch s.keys []
  | within {as s o a c pre e post m p t due}
      (h : Runs.run (activate logic resumeEpoch) init as = some (s, o)) (hcap : s.cap = some c)
      (hsplit : epochsOf resumeEpoch c s a = pre ++ e :: post)
      (hrun : Runs.run (processEpoch logic a.now a.frontier) (buffered s a) pre = some (m, p))
      (hvisit : EpochVisits logic a.now a.frontier m e t due) :
      Reached resumeEpoch t due

end

/-! ### A key of the cache has its logic -/

variable {logic : UnaryLogic V W S L} {now : Int} {e : Nat}

/-- Some of the due notifications are taken: those that wait are still in the cache. -/
theorem run_notifyStep_waiting {pre due : List (K × Int)} {s s₁ : UnaryKeys K L}
    {o : List (UnaryEvent K V W S)} (h : Backed s)
    (hnodup : (pre ++ due).Pairwise fun x y => x.1 ≠ y.1)
    (hdue : ∀ x ∈ pre ++ due, x.1 ∈ s.schedCache)
    (hr : Runs.run (notifyStep logic e) s pre = some (s₁, o)) :
    Backed s₁ ∧ ∀ x ∈ due, x.1 ∈ s₁.schedCache := by
  induction pre generalizing s o with
  | nil =>
    cases hr
    exact ⟨h, hdue⟩
  | cons entry pre ih =>
    rw [List.cons_append] at hnodup hdue
    obtain ⟨t, o₁, hs, ht, hrest⟩ := notifyStep_backed (V := V) logic e hnodup hdue h
    obtain ⟨t', p₁, o₂, hs', hr', -⟩ := Runs.exists_of_run_cons hr
    rw [hs] at hs'
    cases hs'
    exact ih ht (List.pairwise_cons.mp hnodup).2 hrest hr'

theorem run_eofStep_backed {entries : List (K × L)} {s s₁ : UnaryKeys K L}
    {o : List (UnaryEvent K V W S)} (h : Backed s)
    (hr : Runs.run (eofStep logic e) s entries = some (s₁, o)) : Backed s₁ := by
  refine Runs.run_induct (Q := fun _ _ => True) (fun t entry t₁ o₁ ht _ hs => ?_) h
    (Runs.along_true _ _) hr
  cases hs
  exact ht.insert entry.1 _

theorem foldl_applyLoad_backed {loads : List (K × StateChange S)} {s : UnaryKeys K L}
    (h : Backed s) : Backed (loads.foldl (applyLoad logic now) s) := by
  induction loads generalizing s with
  | nil => exact h
  | cons load loads ih => exact ih (applyLoad_backed load h)

/-- Every state of an epoch that starts backed is backed, and the due keys that wait have their
logics. -/
theorem EpochVisits.backed {f : Frontier} {s : UnaryState K V S L} {t : UnaryKeys K L}
    {due : List (K × Int)} (hv : EpochVisits logic now f s e t due) (h : Backed s.keys) :
    Backed t ∧ ∀ entry ∈ due, entry.1 ∈ t.logics := by
  have hnil : ∀ {t' : UnaryKeys K L}, Backed t' →
      Backed t' ∧ ∀ entry ∈ ([] : List (K × Int)), entry.1 ∈ t'.logics :=
    fun ht => ⟨ht, List.forall_mem_nil _⟩
  induction hv with
  | items hpre hr => exact hnil (run_itemStep_backed h hr)
  | @notifies t₁ o₁ pre due t o h₁ hsplit hr =>
    have hsched : ∀ x ∈ notifyKeys now t₁, x.1 ∈ t₁.schedCache := fun x hx =>
      TreeMap.isSome_getElem?_iff_mem.mp (by rw [(mem_notifyKeys.mp hx).1]; rfl)
    obtain ⟨ht, hwait⟩ := run_notifyStep_waiting (run_itemStep_backed h h₁)
      (hsplit ▸ pairwise_notifyKeys t₁) (hsplit ▸ hsched) hr
    exact ⟨ht, fun entry hentry => ht entry.1 (hwait entry hentry)⟩
  | @eofs t₁ o₁ t₂ o₂ pre t o h₁ h₂ heof hpre hr =>
    have h₃ : eofPhase (V := V) logic false e t₂ = some (t₂, []) := rfl
    exact hnil (run_eofStep_backed (phases_backed h h₁ h₂ h₃) hr)
  | @removals t₁ o₁ t₂ o₂ t₃ o₃ pre h₁ h₂ heof hr hpre =>
    have h₃ : eofPhase (V := V) logic false e t₂ = some (t₂, []) := rfl
    exact hnil ((run_eofStep_backed (phases_backed h h₁ h₂ h₃) hr).removeKeys pre)
  | scheds h₁ h₂ h₃ hpre =>
    exact hnil (foldl_noteSched_backed _ (phases_backed h h₁ h₂ h₃))
  | loads hcall he hpre hr =>
    obtain ⟨t₁, o₁, t₂, o₂, t₃, o₃, h₁, h₂, h₃, rfl, -⟩ := callPhases_eq_some.mp hcall
    rw [run_loadStep] at hr
    cases hr
    have ht₃ : Backed (updateSched logic t₃) := updateSched_backed (phases_backed h h₁ h₂ h₃)
    exact hnil (foldl_applyLoad_backed (show Backed { updateSched logic t₃ with
      awokenKeysBuffer := ∅ } from ht₃))

/-! ### Whole runs -/

theorem processEpoch_backed {f : Frontier} {s s₁ : UnaryState K V S L}
    {o : List (UnaryEvent K V W S)} (h : Backed s.keys)
    (hs : processEpoch logic now f s e = some (s₁, o)) : Backed s₁.keys := by
  obtain ⟨-, keys, called, hcall, hclosed⟩ := processEpoch_eq_some.mp hs
  obtain ⟨t₁, o₁, t₂, o₂, t₃, o₃, h₁, h₂, h₃, rfl, -⟩ := callPhases_eq_some.mp hcall
  have hkeys : Backed (updateSched logic t₃) := updateSched_backed (phases_backed h h₁ h₂ h₃)
  obtain ⟨-, rfl, -⟩ | ⟨-, rfl, -⟩ := hclosed
  · exact foldl_applyLoad_backed (show Backed { updateSched logic t₃ with
      awokenKeysBuffer := ∅ } from hkeys)
  · exact hkeys

theorem run_processEpoch_backed {f : Frontier} {s s₁ : UnaryState K V S L} {es : List Nat}
    {o : List (UnaryEvent K V W S)} (h : Backed s.keys)
    (hr : Runs.run (processEpoch logic now f) s es = some (s₁, o)) : Backed s₁.keys :=
  Runs.run_induct (P := fun t => Backed t.keys) (fun _ _ _ _ ht _ hs => processEpoch_backed ht hs)
    h (Runs.along_true _ _) hr

variable {resumeEpoch : Nat}

theorem run_activate_backed {as : List (Activation K V S)} {s : UnaryState K V S L}
    {o : List (UnaryEvent K V W S)}
    (hr : Runs.run (activate logic resumeEpoch) init as = some (s, o)) : Backed s.keys := by
  refine Runs.run_induct (P := fun t => Backed t.keys) (fun t a t₁ o₁ ht _ ha => ?_)
    ready_init.backed (Runs.along_true _ _) hr
  rcases activate_cases ha with ⟨-, rfl, -⟩ | ⟨c, t₂, -, hrun, rfl⟩
  · exact ht
  · have ht₂ : Backed t₂.keys :=
      run_processEpoch_backed (show Backed (buffered t a).keys from ht) hrun
    exact ht₂

theorem Reached.backed {t : UnaryKeys K L} {due : List (K × Int)}
    (h : Reached logic resumeEpoch t due) : Backed t ∧ ∀ entry ∈ due, entry.1 ∈ t.logics := by
  induction h with
  | between hr => exact ⟨run_activate_backed hr, List.forall_mem_nil _⟩
  | @within as s o a c pre e post m p t due hr hcap hsplit hrun hvisit =>
    have hs : Backed s.keys := run_activate_backed hr
    exact hvisit.backed (run_processEpoch_backed (show Backed (buffered s a).keys from hs) hrun)

/-- **A scheduled notification has its logic** in every state that the operator reaches: each key of
the cache has one, each due key that waits has one, and the `unwrap` for the next of them does not
fail. -/
theorem scheduled_has_logic (logic : UnaryLogic V W S L) (resumeEpoch : Nat) {t : UnaryKeys K L}
    {due : List (K × Int)} (h : Reached logic resumeEpoch t due) :
    (∀ k ∈ t.schedCache, k ∈ t.logics) ∧ (∀ entry ∈ due, entry.1 ∈ t.logics) ∧
      ∀ e, ∀ entry ∈ due.head?, (notifyStep (V := V) logic e t entry).isSome := by
  obtain ⟨hb, hdue⟩ := h.backed
  refine ⟨hb, hdue, fun e entry hentry => ?_⟩
  obtain ⟨l, hl⟩ : ∃ l, t.logics[entry.1]? = some l :=
    Option.isSome_iff_exists.mp
      (TreeMap.isSome_getElem?_iff_mem.mpr (hdue entry (List.mem_of_mem_head? hentry)))
  rw [notifyStep, hl]
  rfl

/-- A logic that lives until it is given no time, and wants to be notified at the last time it was
given. -/
def fuse : UnaryLogic (Option Int) Int Int Int where
  builder _ resumeState := resumeState.getD 0
  onItem l _ value := (value.getD l, [], if value.isSome then .retain else .discard)
  onNotify l sched := (l, [sched], .discard)
  onEof l := (l, [], .retain)
  notifyAt l := some l
  snapshot l := l

/-- The logic of key 7 is built, discarded and built again in one epoch. -/
def relit : List (Activation Nat (Option Int) Int) :=
  [(0, [some 100]), (200, [none, some 150])].map fun a => keySeven a.1 a.2

/-- The activation at which its time has come. -/
def untilDue : Activation Nat (Option Int) Int := keySeven 300 []

/-- The logic that was built again is notified, of its own time. -/
theorem scheduled_has_logic_relit : ∃ t : UnaryKeys Nat Int,
    Reached fuse 0 t [(7, 150)] ∧ (∀ k ∈ t.schedCache, k ∈ t.logics) ∧
      (notifyStep (V := Option Int) fuse 0 t (7, 150)).isSome := by
  have hrun : (Runs.run (activate fuse 0) init relit).map (fun p => (p.1.cap,
      epochsOf 0 0 p.1 untilDue, notifyKeys 300 p.1.keys)) =
        some (some 0, [0], [(7, 150)]) := by
    decide +kernel
  have hitems : (Runs.run (activate fuse 0) init relit).map
      (fun p => (buffered p.1 untilDue).inbuf.getD 0 []) = some [] := by
    decide +kernel
  obtain ⟨⟨s, o⟩, hr, he⟩ := Option.map_eq_some_iff.mp hrun
  obtain ⟨hcap, hepochs, hdue⟩ : s.cap = some 0 ∧ epochsOf 0 0 s untilDue = [0] ∧
      notifyKeys 300 s.keys = [(7, 150)] := by
    simpa only [Prod.mk.injEq] using he
  have hnone : (buffered s untilDue).inbuf.getD 0 [] = [] := by
    rw [hr] at hitems
    exact Option.some.inj hitems
  have hreached : Reached fuse 0 s.keys [(7, 150)] := by
    apply Reached.within hr hcap (show epochsOf 0 0 s untilDue = [] ++ 0 :: [] from hepochs) rfl
    have hkeys : Runs.run (itemStep fuse 300 0) s.keys
        ((buffered s untilDue).inbuf.getD 0 []) = some (s.keys, []) := by
      rw [hnone]
      rfl
    have hnotified : Runs.run (notifyStep (V := Option Int) fuse 0) s.keys [] =
        some (s.keys, []) := rfl
    exact .notifies hkeys (show notifyKeys 300 s.keys = [] ++ [(7, 150)] from hdue) hnotified
  obtain ⟨hb, -, hnext⟩ := scheduled_has_logic fuse 0 hreached
  exact ⟨s.keys, hreached, hb, hnext 0 (7, 150) rfl⟩

end Unary
end Bytewax
