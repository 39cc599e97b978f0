import Bytewax.Operators.UnaryEvents

/-!
# Bytewax.Operators.UnaryResume — when nothing is sent before the resume epoch

The epochs before the resume epoch are visited only to apply loads; no item is there to be
processed.  But a visit also runs every notification that is due by then, and at the end of the
input calls every logic: what has been loaded in an earlier epoch speaks too early.  `QuietBelow`
says that an activation has no such call, and `emitsFromResume_iff` that this is exactly when
nothing is sent before the resume epoch.
-/

namespace Bytewax

open Std (TreeMap TreeSet)

namespace Unary

variable {K V W S L : Type} [LinearOrder K]

/-- What the event sends, downstream or to recovery, it sends in epoch `r` or later. -/
def EmitsFrom (r : Nat) : UnaryEvent K V W S → Prop
  | .onItem epoch _ _ emit _ | .onNotify epoch _ _ emit _ | .onEof epoch _ emit _ =>
    emit ≠ [] → r ≤ epoch
  | .snap epoch _ _ => r ≤ epoch
  | .load .. => True

/-- Nothing is sent before the resume epoch. -/
def EmitsFromResume (logic : UnaryLogic V W S L) (resumeEpoch : Nat)
    (as : List (Activation K V S)) : Prop :=
  ∃ s events, Runs.run (activate logic resumeEpoch) init as = some (s, events) ∧
    ∀ x ∈ events, EmitsFrom resumeEpoch x

/-- No notification is due, and at the end of the input there is no logic. -/
def QuietAt (now : Int) (eof : Bool) (s : UnaryKeys K L) : Prop :=
  notifyKeys now s = [] ∧ (eof = true → s.logics.isEmpty = true)

variable (logic : UnaryLogic V W S L)

/-- `QuietAt` in each of the epochs before the resume epoch, with the loads of the epochs gone
through by then. -/
def QuietEpochs (resumeEpoch : Nat) (now : Int) (eof : Bool)
    (loads : Nat → List (K × StateChange S)) : UnaryKeys K L → List Nat → Prop
  | _, [] => True
  | s, e :: es => (e < resumeEpoch → QuietAt now eof s) ∧
      QuietEpochs resumeEpoch now eof loads ((loads e).foldl (applyLoad logic now) s) es

/-- The activation calls no logic in an epoch before the resume epoch. -/
def QuietBelow (resumeEpoch : Nat) (s : UnaryState K V S L) (a : Activation K V S) : Prop :=
  ∀ c ∈ s.cap, QuietEpochs logic resumeEpoch a.now a.frontier.isEof
    (fun e => (buffered s a).loadsInbuf.getD e []) s.keys (epochsOf resumeEpoch c s a)

variable {logic} {resumeEpoch e : Nat} {now : Int} {f : Frontier}

omit [LinearOrder K] in
theorem EmitsFrom.of_epoch {x : UnaryEvent K V W S} (h : resumeEpoch ≤ x.epoch) :
    EmitsFrom resumeEpoch x := by
  cases x with
  | load => trivial
  | snap => exact h
  | onItem | onNotify | onEof => exact fun _ => h

theorem quietEpochs_of_le {eof : Bool} {loads : Nat → List (K × StateChange S)} {es : List Nat}
    {s : UnaryKeys K L} (h : ∀ e ∈ es, resumeEpoch ≤ e) :
    QuietEpochs logic resumeEpoch now eof loads s es := by
  induction es generalizing s with
  | nil => trivial
  | cons e es ih =>
    exact ⟨fun hlt => absurd (h e (by simp)) (Nat.not_le.mpr hlt),
      ih fun x hx => h x (List.mem_cons_of_mem _ hx)⟩

theorem quietEpochs_congr {eof : Bool} {loads loads' : Nat → List (K × StateChange S)}
    {es : List Nat} {s : UnaryKeys K L} (h : ∀ e ∈ es, loads e = loads' e) :
    QuietEpochs logic resumeEpoch now eof loads s es ↔
      QuietEpochs logic resumeEpoch now eof loads' s es := by
  induction es generalizing s with
  | nil => exact Iff.rfl
  | cons e es ih =>
    simp only [QuietEpochs]
    rw [h e (by simp), ih fun x hx => h x (List.mem_cons_of_mem _ hx)]

/-! ### One epoch -/

/-- Without items, an epoch has calls unless it is quiet. -/
theorem callPhases_nil_iff {eof : Bool} {s s₁ : UnaryKeys K L} {o : List (UnaryEvent K V W S)}
    (h : callPhases logic now eof e [] s = some (s₁, o)) : o = [] ↔ QuietAt now eof s := by
  obtain ⟨t₁, o₁, t₂, o₂, t₃, o₃, h₁, h₂, h₃, rfl, rfl⟩ := callPhases_eq_some.mp h
  simp only [Runs.run_nil, Option.some.injEq, Prod.mk.injEq] at h₁
  obtain ⟨rfl, rfl⟩ := h₁
  have hlen₂ := (wakes_notifyStep.run h₂).2
  have hlen₃ := (eofPhase_woken h₃).2
  have hnil₂ : o₂ = [] ↔ notifyKeys now s = [] := by
    rw [← List.length_eq_zero_iff, hlen₂, List.length_eq_zero_iff]
  simp only [List.nil_append, List.append_eq_nil_iff, QuietAt]
  rw [hnil₂]
  refine and_congr_right fun hn => ?_
  rw [hn] at h₂
  simp only [Runs.run_nil, Option.some.injEq, Prod.mk.injEq] at h₂
  obtain ⟨rfl, -⟩ := h₂
  rw [← List.length_eq_zero_iff, hlen₃]
  cases eof with
  | false => simp
  | true => simp [TreeMap.isEmpty_eq_size_eq_zero]

/-- A quiet epoch leaves the keys as they are. -/
theorem callPhases_quiet {eof : Bool} {s : UnaryKeys K L} (hq : QuietAt now eof s)
    (ha : s.awokenKeysBuffer = ∅) : callPhases logic now eof e [] s = some (s, []) := by
  have heof : eofPhase logic eof e s = some (s, []) := by
    cases eof with
    | false => rfl
    | true => exact eofPhase_of_isEmpty (hq.2 rfl) true
  refine callPhases_eq_some.mpr
    ⟨s, [], s, [], s, [], rfl, ?_, heof, (updateSched_of_awoken ha).symm, rfl⟩
  rw [hq.1]
  rfl

/-- What holds at each epoch of an activation, besides `Looping`: only epochs from the resume
epoch on are run before they close, and nothing has happened in the others but loads. -/
structure Resuming (resumeEpoch : Nat) (f : Frontier) (s : UnaryState K V S L) (rest : List Nat) :
    Prop extends Looping f s rest where
  closed : ∀ e ∈ rest, e < resumeEpoch → f.IsClosed e
  awoken : ∀ c ∈ s.cap, c < resumeEpoch → s.keys.awokenKeysBuffer = ∅
  items : ∀ e ∈ s.inbuf, resumeEpoch ≤ e

variable (logic now) in
/-- An epoch before the resume epoch sends nothing exactly if it is quiet; then it only applies its
loads. -/
theorem processEpoch_below {s : UnaryState K V S L} {rest : List Nat} (he : e < resumeEpoch)
    (h : Resuming resumeEpoch f s (e :: rest)) :
    ∃ s₁ o₁, processEpoch logic now f s e = some (s₁, o₁) ∧ Resuming resumeEpoch f s₁ rest ∧
      ((∀ x ∈ o₁, EmitsFrom resumeEpoch x) ↔ QuietAt now f.isEof s.keys) ∧
      (QuietAt now f.isEof s.keys →
        s₁.keys = (s.loadsInbuf.getD e []).foldl (applyLoad logic now) s.keys) ∧
      s₁.loadsInbuf = s.loadsInbuf.erase e := by
  obtain ⟨c, hcap, hle, -⟩ := h.cap
  have hce : c ≤ e := hle e (by simp)
  have hclosed : f.IsClosed e := h.closed e (by simp) he
  have hitems : s.inbuf.getD e [] = [] :=
    TreeMap.getD_eq_fallback fun hm => absurd (h.items e hm) (Nat.not_le.mpr he)
  have hawoken : s.keys.awokenKeysBuffer = ∅ :=
    h.awoken c (by simp [hcap]) (lt_of_le_of_lt hce he)
  obtain ⟨s₁, o₁, hs, hl⟩ := processEpoch_looping logic now h.toLooping
  obtain ⟨-, keys, called, hcall, ⟨-, rfl, rfl⟩ | ⟨hopen, -, -⟩⟩ := processEpoch_eq_some.mp hs
  swap
  · exact absurd hclosed hopen
  rw [hitems] at hcall
  refine ⟨_, _, hs, ⟨hl, fun x hx => h.closed x (by simp [hx]), ?_, ?_⟩, ?_, ?_, rfl⟩
  · intro _ _ _
    exact foldl_applyLoad_awoken _
  · intro x hx
    exact h.items x (TreeMap.mem_erase.mp hx).2
  · rw [← callPhases_nil_iff hcall]
    constructor
    · -- a call would wake its key, and the epoch closes with a snapshot of it
      intro hall
      by_contra hne
      obtain ⟨x, hx⟩ := List.exists_mem_of_ne_nil _ hne
      have hkey : x.key ∈ keys.awokenKeysBuffer :=
        ((callPhases_woken hcall).awoken x.key).mpr (.inr ⟨x, hx, rfl⟩)
      have hsnap := hall _ (List.mem_append_right _ (List.mem_append_left _
        (mem_snapshots.mpr ⟨x.key, hkey, rfl⟩)))
      exact absurd hsnap (Nat.not_le.mpr he)
    · rintro rfl x hx
      have hempty : ∀ k, k ∉ keys.awokenKeysBuffer := by
        intro k hk
        rw [(callPhases_woken hcall).awoken, hawoken] at hk
        simp at hk
      simp only [List.nil_append, List.mem_append, List.mem_map, mem_snapshots] at hx
      rcases hx with ⟨k, hk, -⟩ | ⟨l, -, rfl⟩
      · exact absurd hk (hempty k)
      · trivial
  · intro hq
    rw [callPhases_quiet hq hawoken] at hcall
    simp only [Option.some.injEq, Prod.mk.injEq] at hcall
    obtain ⟨rfl, -⟩ := hcall
    rw [← hawoken]

variable (logic now) in
/-- An epoch from the resume epoch on sends nothing too early. -/
theorem processEpoch_from {s : UnaryState K V S L} {rest : List Nat} (he : resumeEpoch ≤ e)
    (h : Resuming resumeEpoch f s (e :: rest)) :
    ∃ s₁ o₁, processEpoch logic now f s e = some (s₁, o₁) ∧ Resuming resumeEpoch f s₁ rest ∧
      ∀ x ∈ o₁, EmitsFrom resumeEpoch x := by
  obtain ⟨s₁, o₁, hs, hl⟩ := processEpoch_looping logic now h.toLooping
  obtain ⟨-, keys, called, -, hcase⟩ := processEpoch_eq_some.mp hs
  have hfrom : s₁.cap = some e ∧ s₁.inbuf = s.inbuf.erase e := by
    rcases hcase with ⟨-, rfl, -⟩ | ⟨-, rfl, -⟩
    · exact ⟨rfl, rfl⟩
    · exact ⟨rfl, rfl⟩
  refine ⟨s₁, o₁, hs, ⟨hl, fun x hx => h.closed x (by simp [hx]), ?_, ?_⟩, ?_⟩
  · intro c hc hlt
    rw [hfrom.1] at hc
    obtain rfl : e = c := Option.some.inj hc
    exact absurd he (Nat.not_le.mpr hlt)
  · intro x hx
    rw [hfrom.2] at hx
    exact h.items x (TreeMap.mem_erase.mp hx).2
  · intro x hx
    exact EmitsFrom.of_epoch (by rw [processEpoch_epoch hs x hx]; exact he)

/-! ### One activation -/

variable (logic now) in
/-- The epochs of an activation send nothing too early exactly if those before the resume epoch
are quiet. -/
theorem run_processEpoch_quiet {es : List Nat} {s : UnaryState K V S L}
    (h : Resuming resumeEpoch f s es) :
    ∃ s₁ o₁, Runs.run (processEpoch logic now f) s es = some (s₁, o₁) ∧
      Resuming resumeEpoch f s₁ [] ∧ ((∀ x ∈ o₁, EmitsFrom resumeEpoch x) ↔
        QuietEpochs logic resumeEpoch now f.isEof (fun e => s.loadsInbuf.getD e []) s.keys es) := by
  induction es generalizing s with
  | nil => exact ⟨s, [], rfl, h, by simp [QuietEpochs]⟩
  | cons e es ih =>
    by_cases he : e < resumeEpoch
    · obtain ⟨s₁, o₁, hs, h₁, hiff, hkeys, hloads⟩ :=
        processEpoch_below logic now he h
      obtain ⟨s₂, o₂, hr, h₂, hiff₂⟩ := ih h₁
      refine ⟨s₂, o₁ ++ o₂, Runs.run_cons hs hr, h₂, ?_⟩
      have hall : (∀ x ∈ o₁ ++ o₂, EmitsFrom resumeEpoch x) ↔
          (∀ x ∈ o₁, EmitsFrom resumeEpoch x) ∧ ∀ x ∈ o₂, EmitsFrom resumeEpoch x :=
        List.forall_mem_append
      rw [hall, hiff, hiff₂]
      simp only [QuietEpochs, he, true_implies]
      refine and_congr_right fun hq => ?_
      rw [hkeys hq]
      refine quietEpochs_congr fun x hx => ?_
      have hne : e ≠ x := ((List.pairwise_cons.mp h.sorted).1 x hx).ne
      rw [hloads, TreeMap.getD_erase]
      simp [hne]
    · have hle : resumeEpoch ≤ e := Nat.not_lt.mp he
      have hrest : ∀ x ∈ e :: es, resumeEpoch ≤ x := by
        rintro x (_ | ⟨_, hx⟩)
        · exact hle
        · exact le_trans hle ((List.pairwise_cons.mp h.sorted).1 x hx).le
      obtain ⟨s₁, o₁, hs, h₁, hall⟩ := processEpoch_from logic now hle h
      obtain ⟨s₂, o₂, hr, h₂, hiff₂⟩ := ih h₁
      refine ⟨s₂, o₁ ++ o₂, Runs.run_cons hs hr, h₂, ?_⟩
      refine iff_of_true (List.forall_mem_append.mpr ⟨hall, hiff₂.mpr ?_⟩)
        (quietEpochs_of_le hrest)
      exact quietEpochs_of_le fun x hx => hrest x (List.mem_cons_of_mem _ hx)

/-- What holds between activations, besides `Ready`. -/
structure Below (resumeEpoch : Nat) (s : UnaryState K V S L) : Prop where
  awoken : ∀ c ∈ s.cap, c < resumeEpoch → s.keys.awokenKeysBuffer = ∅
  items : ∀ e ∈ s.inbuf, resumeEpoch ≤ e

variable (logic) in
/-- An activation sends nothing too early exactly if it is quiet below the resume epoch. -/
theorem activate_quiet_iff {s : UnaryState K V S L} {a : Activation K V S} {fi fl : Frontier}
    (h : Ready (fi.both fl) s) (hb : Below resumeEpoch s) (ha : Follows fi fl a)
    (hitems : ∀ b ∈ a.items, resumeEpoch ≤ b.1) :
    ∃ s₁ o₁, activate logic resumeEpoch s a = some (s₁, o₁) ∧
      (Ready a.frontier s₁ ∧ Below resumeEpoch s₁) ∧
      ((∀ x ∈ o₁, EmitsFrom resumeEpoch x) ↔ QuietBelow logic resumeEpoch s a) := by
  obtain ⟨s₁, o₁, hs, hr⟩ := activate_ready logic resumeEpoch h ha
  cases hcap : s.cap with
  | none =>
    rw [activate_none hcap] at hs
    simp only [Option.some.injEq, Prod.mk.injEq] at hs
    obtain ⟨rfl, rfl⟩ := hs
    exact ⟨s, [], activate_none hcap, ⟨hr, hb⟩, by simp [QuietBelow, hcap]⟩
  | some c =>
    have hres : Resuming resumeEpoch a.frontier (buffered s a) (epochsOf resumeEpoch c s a) := by
      refine ⟨looping_buffered resumeEpoch h ha hcap, fun x hx hlt => ?_, hb.awoken, fun x hx => ?_⟩
      · rcases mem_processEpochs.mp hx with ⟨-, hc⟩ | ⟨hle, rfl⟩
        · exact hc
        · exact absurd hle (Nat.not_le.mpr hlt)
      · rcases mem_extend.mp hx with hx | ⟨b, hb', rfl⟩
        · exact hb.items x hx
        · exact hitems b hb'
    obtain ⟨s₂, o₂, hrun, h₂, hiff⟩ := run_processEpoch_quiet logic a.now hres
    rw [activate_some hcap, hrun, Option.map_some] at hs
    simp only [Option.some.injEq, Prod.mk.injEq] at hs
    obtain ⟨rfl, rfl⟩ := hs
    refine ⟨_, o₂, ?_, ⟨hr, ?_, h₂.items⟩, ?_⟩
    · rw [activate_some hcap, hrun, Option.map_some]
    · intro x hx hlt
      refine h₂.awoken x ?_ hlt
      simp only [finished] at hx
      split at hx
      · exact absurd hx (by simp)
      · exact hx
    · rw [hiff]
      simp only [QuietBelow, hcap, Option.mem_some_iff, forall_eq']
      exact Iff.rfl

/-! ### Schedules -/

/-- **Nothing is sent before the resume epoch exactly if no activation calls a logic there.** -/
theorem emitsFromResume_iff {as : List (Activation K V S)}
    (has : Schedule (some 0) (some 0) as) (hitems : ∀ a ∈ as, ∀ b ∈ a.items, resumeEpoch ≤ b.1) :
    EmitsFromResume logic resumeEpoch as ↔
      Runs.Along (activate logic resumeEpoch) (QuietBelow logic resumeEpoch) init as := by
  refine Runs.run_good_iff_along
    (P := fun s as => ∃ fi fl, Ready (fi.both fl) s ∧ Below resumeEpoch s ∧ Schedule fi fl as ∧
      ∀ a ∈ as, ∀ b ∈ a.items, resumeEpoch ≤ b.1) ?_ ?_
  · rintro s a as ⟨fi, fl, hr, hb, ⟨ha, hsched⟩, hit⟩
    obtain ⟨s₁, o₁, hs, ⟨hr₁, hb₁⟩, hiff⟩ :=
      activate_quiet_iff logic hr hb ha (hit a (by simp))
    exact ⟨s₁, o₁, hs, ⟨a.itemsFrontier, a.loadsFrontier, hr₁, hb₁, hsched,
      fun b hb => hit b (List.mem_cons_of_mem _ hb)⟩, hiff⟩
  · exact ⟨some 0, some 0, ready_init, ⟨fun _ _ _ => rfl, by simp [init]⟩, has, hitems⟩

/-! ### A notification that fires too early -/

/-- A logic that emits once, at the time that is its state. -/
def reminder : UnaryLogic Unit Unit Int Int where
  builder now resumeState := resumeState.getD now
  onItem l _ _ := (l, [], .retain)
  onNotify l _ := (l, [()], .discard)
  onEof l := (l, [], .retain)
  notifyAt l := some l
  snapshot l := l

/-- A reminder for time 5 is loaded in epoch 1; then the loads end, and the items start in epoch 3. -/
def lateReminder : List (Activation Nat Unit Int) :=
  [{ now := 10
     items := []
     loads := [(1, [(0, .upsert 5)])]
     itemsFrontier := some 3
     loadsFrontier := some 2 },
   { now := 10
     items := []
     loads := []
     itemsFrontier := some 3
     loadsFrontier := none }]

theorem schedule_lateReminder : Schedule (some 0) (some 0) lateReminder := by
  refine ⟨⟨by simp, ?_, ?_, ?_⟩, ⟨by simp, by simp, ?_, ?_⟩, trivial⟩
  · intro b hb
    obtain rfl := List.mem_singleton.mp hb
    exact ⟨0, rfl, by decide⟩
  · rintro t ⟨⟩
    exact ⟨0, rfl, by decide⟩
  · rintro t ⟨⟩
    exact ⟨0, rfl, by decide⟩
  · exact Frontier.Le.refl _
  · rintro t ⟨⟩

theorem emitsFromResume_iff_lateReminder :
    EmitsFromResume reminder 3 lateReminder ↔
      Runs.Along (activate reminder 3) (QuietBelow reminder 3) init lateReminder :=
  emitsFromResume_iff schedule_lateReminder (by simp [lateReminder])

theorem events_lateReminder : (Runs.run (activate reminder 3) init lateReminder).map Prod.snd =
    some [.load 1 0 (.upsert 5), .onNotify 1 0 5 [()] .discard, .snap 1 0 .discard] := by
  decide +kernel

/-- The reminder is sent in epoch 1, though the dataflow resumes in epoch 3. -/
theorem not_emitsFromResume_of_due :
    Schedule (some 0) (some 0) lateReminder ∧
      (∀ a ∈ lateReminder, (∀ b ∈ a.items, 3 ≤ b.1) ∧ ∀ b ∈ a.loads, b.1 < 3) ∧
      ¬ EmitsFromResume reminder 3 lateReminder := by
  refine ⟨schedule_lateReminder, by decide, ?_⟩
  rintro ⟨s, events, hr, hall⟩
  have hev := events_lateReminder
  rw [hr] at hev
  obtain rfl : events = _ := Option.some.inj hev
  have hearly : EmitsFrom 3 (.onNotify 1 0 5 [()] .discard : UnaryEvent Nat Unit Unit Int) :=
    hall _ (by simp)
  exact absurd (hearly (by simp)) (by decide)

end Unary
end Bytewax
