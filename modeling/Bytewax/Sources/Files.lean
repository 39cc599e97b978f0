import Bytewax.Lib.Iter
import Bytewax.Lib.TextFile
import Mathlib.Data.List.DropRight

/-!
# Bytewax.Sources.Files — reading a file line by line

A partition of `FileSource` or `DirSource` reads batches of lines through two generators, and its
snapshot is the position of the file.  Neither generator reads ahead, so a partition that is rebuilt
from a snapshot goes on with the next line.  Strings are lists of characters.
-/

namespace Bytewax

open Iter

/-- `_readlines`: the file, and whether the generator has returned. -/
structure Readlines where
  f : TextFile
  finished : Bool
  deriving DecidableEq, Repr

namespace Readlines

/-- The next line of the generator. -/
def next (g : Readlines) : Option (List Char) × Readlines :=
  if g.finished then
    (none, g)
  else
    let (line, f) := g.f.readline
    if line.length ≤ 0 then (none, ⟨f, true⟩) else (some line, ⟨f, false⟩)

/-- The whole file has been read. -/
def AtEnd (g : Readlines) : Prop := g.f.unread = []

/-- The generator has not returned before the end of the file. -/
def Honest (g : Readlines) : Prop := g.finished = true → g.AtEnd

/-- Two generators at one position of one file. -/
def Same (g h : Readlines) : Prop := g.f = h.f ∧ (g.finished = h.finished ∨ g.AtEnd)

variable {g h : Readlines}

theorem next_of_atEnd (hg : g.AtEnd) : g.next = (none, ⟨g.f, true⟩) := by
  obtain ⟨f, finished⟩ := g
  cases finished with
  | true => rfl
  | false =>
    unfold next
    rw [TextFile.readline_of_unread hg]
    rfl

theorem next_of_not_atEnd (hg : g.Honest) (hend : ¬ g.AtEnd) :
    g.next = (some g.f.readline.1, ⟨g.f.readline.2, false⟩) := by
  have hfin : g.finished = false := by
    rw [← Bool.not_eq_true]
    exact fun hfin => hend (hg hfin)
  have hline : ¬ g.f.readline.1.length ≤ 0 := by
    rw [Nat.le_zero, List.length_eq_zero_iff]
    exact (TextFile.readline_of_ne_nil hend).1
  simp [next, hfin, hline]

/-- A line that is read shortens what is left. -/
theorem unread_next (hg : g.Honest) (hend : ¬ g.AtEnd) :
    g.next.2.f.unread.length < g.f.unread.length := by
  rw [next_of_not_atEnd hg hend]
  exact (TextFile.readline_of_ne_nil hend).2

theorem Same.refl (g : Readlines) : g.Same g := ⟨rfl, .inl rfl⟩

theorem Same.atEnd (hs : g.Same h) (hg : g.AtEnd) : h.AtEnd := by
  unfold AtEnd
  rw [← hs.1]
  exact hg

/-- Generators at one position give the same line and are at one position behind it. -/
theorem Same.next (hs : g.Same h) : g.next.1 = h.next.1 ∧ g.next.2.Same h.next.2 := by
  rcases hs.2 with hfin | hend
  · obtain ⟨f, finished⟩ := g
    obtain ⟨f', finished'⟩ := h
    obtain rfl : f = f' := hs.1
    obtain rfl : finished = finished' := hfin
    exact ⟨rfl, .refl _⟩
  · rw [next_of_atEnd hend, next_of_atEnd (hs.atEnd hend)]
    exact ⟨rfl, hs.1, .inl rfl⟩

theorem Honest.next (hg : g.Honest) : g.next.2.Honest := by
  by_cases hend : g.AtEnd
  · rw [next_of_atEnd hend]
    exact fun _ => hend
  · rw [next_of_not_atEnd hg hend]
    exact fun hfin => nomatch hfin

theorem AtEnd.next (hg : g.AtEnd) : g.next.2.AtEnd := by
  rw [next_of_atEnd hg]
  exact hg

/-- What stays of a file that is read: its text, and how its lines end. -/
theorem next_file (g : Readlines) : g.next.2.f.content = g.f.content ∧
    g.next.2.f.translate = g.f.translate := by
  obtain ⟨f, finished⟩ := g
  cases finished with
  | true => exact ⟨rfl, rfl⟩
  | false =>
    unfold next
    simp only [Bool.false_eq_true, if_false]
    split
    · exact ⟨rfl, rfl⟩
    · exact ⟨rfl, rfl⟩

/-- The generator over a file, as the partitions keep it. -/
structure Over (content : List Char) (translate : Bool) (g : Readlines) : Prop where
  content : g.f.content = content
  translate : g.f.translate = translate
  honest : g.Honest

theorem Over.next {content : List Char} {translate : Bool} (h : Over content translate g) :
    Over content translate g.next.2 :=
  ⟨g.next_file.1.trans h.content, g.next_file.2.trans h.translate, h.honest.next⟩

end Readlines

/-- `_strip_n`. -/
def stripN (s : List Char) : List Char := s.rdropWhile (· = '\n')

/-- `map(_strip_n, _readlines(f))`. -/
def strippedLines (g : Readlines) : Next (List Char) Empty × Readlines :=
  match g.next with
  | (some line, g) => (.item (stripN line), g)
  | (none, g) => (.stop, g)

/-- `_FileSourcePartition`: `_batcher`, over the file `_f`. -/
abbrev FileSourcePartition := Batcher Readlines

namespace FileSourcePartition

/-- `_FileSourcePartition.__init__`. -/
def new (content : List Char) (resumeState : Option Nat) : FileSourcePartition :=
  let f := TextFile.openText content true
  let f := match resumeState with
    | some position => f.seek position
    | none => f
  ⟨⟨f, false⟩, false⟩

/-- `next_batch`. -/
def nextBatch (batchSize : Nat) (p : FileSourcePartition) :
    Next (List (List Char)) Empty × FileSourcePartition :=
  batch strippedLines batchSize p

/-- `snapshot`. -/
def snapshot (p : FileSourcePartition) : Nat := p.it.f.tell

/-- The partitions of a file in any sequence of executions, each of which resumes from a snapshot of
one before it. -/
inductive Reachable (content : List Char) (batchSize : Nat) : FileSourcePartition → Prop
  | new : Reachable content batchSize (new content none)
  | resume {p} (h : Reachable content batchSize p) :
    Reachable content batchSize (.new content (some p.snapshot))
  | nextBatch {p} (h : Reachable content batchSize p) :
    Reachable content batchSize (p.nextBatch batchSize).2

/-! ### The rebuilt partition goes on with the next line -/

theorem bisim_strippedLines : Bisim strippedLines Readlines.Same := by
  have hpair : ∀ g h : Readlines, g.Same h → (strippedLines g).1 = (strippedLines h).1 ∧
      (strippedLines g).2.Same (strippedLines h).2 := by
    intro g h hs
    obtain ⟨hline, hrest⟩ := hs.next
    unfold strippedLines
    rcases hg : g.next with ⟨line, g₁⟩
    rcases hh : h.next with ⟨line', h₁⟩
    rw [hg, hh] at hline hrest
    obtain rfl : line = line' := hline
    cases line with
    | none => exact ⟨rfl, hrest⟩
    | some line => exact ⟨rfl, hrest⟩
  exact ⟨fun g h hs => (hpair g h hs).1, fun g h hs => (hpair g h hs).2⟩

theorem strippedLines_snd (g : Readlines) : (strippedLines g).2 = g.next.2 := by
  unfold strippedLines
  rcases g.next with ⟨_ | line, g₁⟩
  · rfl
  · rfl

theorem exhausted_strippedLines : Exhausted strippedLines Readlines.AtEnd := by
  refine ⟨fun g hg => ?_, fun g hg => ?_⟩
  · rw [strippedLines, Readlines.next_of_atEnd hg]
  · rw [strippedLines_snd]
    exact hg.next

theorem atEnd_of_stop {g : Readlines} (hg : g.Honest) (h : (strippedLines g).1 = .stop) :
    (strippedLines g).2.AtEnd := by
  by_cases hend : g.AtEnd
  · exact exhausted_strippedLines.stays g hend
  · rw [strippedLines, Readlines.next_of_not_atEnd hg hend] at h
    cases h

variable {content : List Char} {batchSize : Nat} {p : FileSourcePartition}

/-- What holds of the partitions of a file. -/
theorem Reachable.inFile (hsize : 0 < batchSize) (h : Reachable content batchSize p) :
    Readlines.Over content true p.it ∧ (p.finished = true → p.it.AtEnd) := by
  induction h with
  | new => exact ⟨⟨rfl, rfl, fun hfin => nomatch hfin⟩, fun hfin => nomatch hfin⟩
  | resume h ih => exact ⟨⟨rfl, rfl, fun hfin => nomatch hfin⟩, fun hfin => nomatch hfin⟩
  | @nextBatch p h ih =>
    have hnext : ∀ g, Readlines.Over content true g →
        Readlines.Over content true (strippedLines g).2 := by
      intro g hg
      rw [strippedLines_snd]
      exact hg.next
    refine ⟨batch_invariant hnext ih.1, fun hfin => ?_⟩
    exact finished_batch (I := Readlines.Over content true)
      (fun g hg hstop => atEnd_of_stop hg.honest hstop) ih.1 ih.2 hsize (fun e => e.elim) hfin

/-- **The rebuilt partition gives what the original would have given.** -/
theorem pulls_resume (hsize : 0 < batchSize) (h : Reachable content batchSize p) (m : Nat) :
    pulls (nextBatch batchSize) m (new content (some p.snapshot)) =
      pulls (nextBatch batchSize) m p := by
  obtain ⟨hover, hfin⟩ := h.inFile hsize
  obtain ⟨⟨f, finished⟩, ended⟩ := p
  have hf : (new content (some f.tell)).it.f = f := by
    obtain ⟨content', translate, position⟩ := f
    obtain rfl : content' = content := hover.content
    obtain rfl : translate = true := hover.translate
    rfl
  have hsame : (new content (some f.tell)).it.Same ⟨f, finished⟩ := by
    refine ⟨hf, ?_⟩
    cases finished with
    | false => exact .inl rfl
    | true =>
      right
      show (new content (some f.tell)).it.f.unread = []
      rw [hf]
      exact hover.honest rfl
  apply (bisim_strippedLines.batch exhausted_strippedLines).pulls
  cases ended with
  | false => exact .inl ⟨hsame, rfl⟩
  | true =>
    have hend : f.unread = [] := hfin rfl
    refine .inr ⟨?_, hend⟩
    show (new content (some f.tell)).it.f.unread = []
    rw [hf, hend]

end FileSourcePartition
end Bytewax
