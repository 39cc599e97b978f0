import Mathlib.Data.List.Basic

/-!
# Bytewax.Lib.TextFile — a text file that is read line by line

A file that is open for reading has a position, which `tell` gives and `seek` sets.  A line ends
behind a line feed, a carriage return or both; a file opened with `newline=None` translates the end
of a line, one opened with `newline=""` does not.  Positions are numbers of characters.
-/

/-- A text file that is open for reading. -/
structure TextFile where
  content : List Char
  translate : Bool
  position : Nat
  deriving DecidableEq, Repr

namespace TextFile

/-- The first line of a text, with its end, and the text behind it. -/
def splitLine (translate : Bool) : List Char → List Char × List Char
  | [] => ([], [])
  | '\n' :: text => (['\n'], text)
  | '\r' :: '\n' :: text => (if translate then ['\n'] else ['\r', '\n'], text)
  | '\r' :: text => (if translate then ['\n'] else ['\r'], text)
  | c :: text => (c :: (splitLine translate text).1, (splitLine translate text).2)

/-- What has not been read yet. -/
def unread (f : TextFile) : List Char := f.content.drop f.position

/-- `open(path, "rt")`. -/
def openText (content : List Char) (translate : Bool) : TextFile := ⟨content, translate, 0⟩

/-- `tell`. -/
def tell (f : TextFile) : Nat := f.position

/-- `seek`. -/
def seek (f : TextFile) (position : Nat) : TextFile := { f with position }

/-- `readline`: the next line, which is empty at the end of the file. -/
def readline (f : TextFile) : List Char × TextFile :=
  let (line, text) := splitLine f.translate f.unread
  (line, { f with position := f.position + (f.unread.length - text.length) })

variable {translate : Bool} {text : List Char} {f : TextFile}

variable (translate text) in
theorem splitLine_suffix : (splitLine translate text).2 <:+ text := by
  fun_induction splitLine translate text with
  | case1 => exact List.suffix_rfl
  | case2 text => exact List.suffix_cons _ _
  | case3 text => exact (List.suffix_cons _ _).trans (List.suffix_cons _ _)
  | case4 text _ => exact List.suffix_cons _ _
  | case5 c text _ _ _ ih => exact ih.trans (List.suffix_cons _ _)

/-- A text that is not empty has a first line. -/
theorem splitLine_of_ne_nil (h : text ≠ []) : (splitLine translate text).1 ≠ [] ∧
    (splitLine translate text).2.length < text.length := by
  fun_induction splitLine translate text with
  | case1 => exact absurd rfl h
  | case2 text => simp
  | case3 text =>
    refine ⟨by cases translate <;> simp, ?_⟩
    simp only [List.length_cons]
    omega
  | case4 text _ => exact ⟨by cases translate <;> simp, by simp⟩
  | case5 c text _ _ _ ih =>
    refine ⟨by simp, ?_⟩
    have hle := (splitLine_suffix translate text).length_le
    simp only [List.length_cons]
    omega

/-- Reading a line leaves what is behind it. -/
theorem unread_readline : f.readline.2.unread = (splitLine f.translate f.unread).2 := by
  obtain ⟨pre, hpre⟩ := splitLine_suffix f.translate f.unread
  have hlen : f.unread.length - (splitLine f.translate f.unread).2.length = pre.length := by
    have hsum := congrArg List.length hpre
    rw [List.length_append] at hsum
    omega
  show f.content.drop (f.position + (f.unread.length - _)) = _
  rw [← List.drop_drop, hlen]
  have hdrop : (pre ++ (splitLine f.translate f.unread).2).drop pre.length =
      (splitLine f.translate f.unread).2 := List.drop_left
  rwa [hpre] at hdrop

/-- At the end of the file there is nothing to read. -/
theorem readline_of_unread (h : f.unread = []) : f.readline = ([], f) := by
  simp [readline, h, splitLine]

/-- Before the end of the file a line is read. -/
theorem readline_of_ne_nil (h : f.unread ≠ []) : f.readline.1 ≠ [] ∧
    f.readline.2.unread.length < f.unread.length := by
  rw [unread_readline]
  exact splitLine_of_ne_nil h

@[simp] theorem readline_content : f.readline.2.content = f.content := rfl

@[simp] theorem readline_translate : f.readline.2.translate = f.translate := rfl

end TextFile
