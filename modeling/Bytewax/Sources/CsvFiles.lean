import Bytewax.Lib.Csv
import Bytewax.Lib.Dict
import Bytewax.Sources.Files

/-!
# Bytewax.Sources.CsvFiles — reading a CSV file row by row

A partition of `CSVSource` reads the header from the start of the file and then goes to its resume
position.  `csv.reader` pulls a line when it needs one to end a row, and `csv.DictReader` pulls rows
until one is not blank, so here too nothing is read ahead and a rebuilt partition goes on with the
next row.  Lines become rows of fields by any `RowParser`; each dialect has one.
-/

namespace Bytewax

open Iter

/-- `csv.reader`: the generator of its lines, and `line_num`. -/
structure CsvReader where
  lines : Readlines
  lineNum : Nat
  deriving DecidableEq, Repr

namespace CsvReader

variable {F : Type} (parser : RowParser F)

/-- The loop over the lines of a row; each turn but the last reads some of the file. -/
def nextRow : Nat → parser.State → CsvReader → Next (List F) String × CsvReader
  | 0, _, r => (.stop, r)
  | fuel + 1, state, r =>
    match r.lines.next with
    | (none, lines) =>
      match parser.finish state with
      | none => (.stop, { r with lines })
      | some (.ok row) => (.item row, { r with lines })
      | some (.error e) => (.error e, { r with lines })
    | (some line, lines) =>
      match parser.feed state line with
      | .ok (.inl state) => nextRow fuel state ⟨lines, r.lineNum + 1⟩
      | .ok (.inr row) => (.item row, ⟨lines, r.lineNum + 1⟩)
      | .error e => (.error e, ⟨lines, r.lineNum + 1⟩)

/-- `next(reader)`. -/
def next (r : CsvReader) : Next (List F) String × CsvReader :=
  nextRow parser (r.lines.f.unread.length + 1) parser.start r

/-- `while row == []: row = next(reader)`. -/
def skipBlank : Nat → List F → CsvReader → Next (List F) String × CsvReader
  | 0, _, r => (.stop, r)
  | fuel + 1, row, r =>
    if row.isEmpty then
      match r.next parser with
      | (.item row, r) => skipBlank fuel row r
      | (.stop, r) => (.stop, r)
      | (.error e, r) => (.error e, r)
    else
      (.item row, r)

end CsvReader

/-- A value of a row: a field, the fields that have no key, or `restval`. -/
inductive CsvValue (F V : Type)
  | field (f : F)
  | rest (fs : List F)
  | restval (v : V)
  deriving DecidableEq, Repr

/-- The arguments of `DictReader` beside those of the dialect; `none` is `None`. -/
structure FmtParams (F V : Type) where
  fieldnames : Option (List F)
  restkey : Option F
  restval : V

/-- `csv.DictReader`. -/
structure DictReader (F V : Type) where
  fieldnames : Option (List F)
  params : FmtParams F V
  reader : CsvReader
  lineNum : Nat

/-- The dictionary of a row. -/
def rowDict {F V : Type} [DecidableEq F] (fieldnames : List F) (params : FmtParams F V)
    (row : List F) : Dict (Option F) (CsvValue F V) :=
  let d := Dict.ofList ((fieldnames.map some).zip (row.map .field))
  if fieldnames.length < row.length then
    d.set params.restkey (.rest (row.drop fieldnames.length))
  else if fieldnames.length > row.length then
    (fieldnames.drop row.length).foldl (fun d key => d.set (some key) (.restval params.restval)) d
  else
    d

namespace DictReader

variable {F V : Type} [DecidableEq F] (parser : RowParser F)

/-- The property `fieldnames`, which reads the header when it is not known. -/
def getFieldnames (d : DictReader F V) : Except String (Option (List F)) × DictReader F V :=
  match d.fieldnames with
  | some names => (.ok (some names), { d with lineNum := d.reader.lineNum })
  | none =>
    match d.reader.next parser with
    | (.item row, reader) =>
      (.ok (some row), { d with fieldnames := some row, reader, lineNum := reader.lineNum })
    | (.stop, reader) => (.ok none, { d with reader, lineNum := reader.lineNum })
    | (.error e, reader) => (.error e, { d with reader })

/-- `__next__` behind its side effect. -/
def nextRecord (d : DictReader F V) : Next (Dict (Option F) (CsvValue F V)) String × DictReader F V :=
  match d.reader.next parser with
  | (.stop, reader) => (.stop, { d with reader })
  | (.error e, reader) => (.error e, { d with reader })
  | (.item row, reader) =>
    let d := { d with lineNum := reader.lineNum }
    match reader.skipBlank parser (reader.lines.f.unread.length + 1) row with
    | (.stop, reader) => (.stop, { d with reader })
    | (.error e, reader) => (.error e, { d with reader })
    | (.item row, reader) =>
      match ({ d with reader } : DictReader F V).getFieldnames parser with
      | (.ok (some names), d) => (.item (rowDict names d.params row), d)
      | (.ok none, d) => (.error "zip argument #1 must support iteration", d)
      | (.error e, d) => (.error e, d)

/-- `__next__`. -/
def next (d : DictReader F V) : Next (Dict (Option F) (CsvValue F V)) String × DictReader F V :=
  if d.lineNum = 0 then
    match d.getFieldnames parser with
    | (.ok _, d) => d.nextRecord parser
    | (.error e, d) => (.error e, d)
  else
    d.nextRecord parser

end DictReader

/-- `_CSVPartition`: `_batcher`, over the reader of the file `_f`. -/
abbrev CSVPartition (F V : Type) := Batcher (DictReader F V)

namespace CSVPartition

variable {F V : Type} [DecidableEq F] (parser : RowParser F)

/-- The reader behind `_ = reader.fieldnames`. -/
def header (content : List Char) (fmtparams : FmtParams F V) : Except String (DictReader F V) :=
  let f := TextFile.openText content false
  let reader : DictReader F V := ⟨fmtparams.fieldnames, fmtparams, ⟨⟨f, false⟩, 0⟩, 0⟩
  match reader.getFieldnames parser with
  | (.ok _, reader) => .ok reader
  | (.error e, _) => .error e

/-- `self._f.seek(position)`: the file of a reader. -/
def seek (d : DictReader F V) (position : Nat) : DictReader F V :=
  { d with reader := { d.reader with lines := { d.reader.lines with
      f := d.reader.lines.f.seek position } } }

/-- `_CSVPartition.__init__`. -/
def new (content : List Char) (fmtparams : FmtParams F V) (resumeState : Option Nat) :
    Except String (CSVPartition F V) := do
  let reader ← header parser content fmtparams
  return ⟨match resumeState with
    | some position => seek reader position
    | none => reader, false⟩

/-- `next_batch`. -/
def nextBatch (batchSize : Nat) (p : CSVPartition F V) :
    Next (List (Dict (Option F) (CsvValue F V))) String × CSVPartition F V :=
  batch (DictReader.next parser) batchSize p

/-- `snapshot`. -/
def snapshot (p : CSVPartition F V) : Nat := p.it.reader.lines.f.tell

/-- The partitions of a file in any sequence of executions, each of which resumes from a snapshot of
one before it; a call that fails ends its execution. -/
inductive Reachable (content : List Char) (fmtparams : FmtParams F V) (batchSize : Nat) :
    CSVPartition F V → Prop
  | new {p} (h : new parser content fmtparams none = .ok p) :
    Reachable content fmtparams batchSize p
  | resume {p q} (h : Reachable content fmtparams batchSize p)
    (hq : new parser content fmtparams (some p.snapshot) = .ok q) :
    Reachable content fmtparams batchSize q
  | nextBatch {p} (h : Reachable content fmtparams batchSize p)
    (hok : ∀ e, (p.nextBatch parser batchSize).1 ≠ .error e) :
    Reachable content fmtparams batchSize (p.nextBatch parser batchSize).2

end CSVPartition

/-! ### Rows -/

namespace CsvReader

variable {F : Type} (parser : RowParser F) {r r' : CsvReader} {fuel : Nat} {state : parser.State}

/-- Readers at one position of one file. -/
def Same (r r' : CsvReader) : Prop := r.lines.Same r'.lines

/-- A row is read from the generator of the lines only. -/
theorem nextRow_invariant {I : Readlines → Prop} (h : ∀ g, I g → I g.next.2) (hr : I r.lines) :
    I (r.nextRow parser fuel state).2.lines := by
  induction fuel generalizing r state with
  | zero => exact hr
  | succ fuel ih =>
    have hnext := h r.lines hr
    unfold nextRow
    rcases hg : r.lines.next with ⟨_ | line, lines⟩
    · rw [hg] at hnext
      rcases parser.finish state with _ | (e | row)
      · exact hnext
      · exact hnext
      · exact hnext
    · rw [hg] at hnext
      dsimp only
      rcases parser.feed state line with e | (state | row)
      · exact hnext
      · exact ih hnext
      · exact hnext

theorem nextRow_same (h : r.Same r') :
    (r.nextRow parser fuel state).1 = (r'.nextRow parser fuel state).1 ∧
      (r.nextRow parser fuel state).2.Same (r'.nextRow parser fuel state).2 := by
  induction fuel generalizing r r' state with
  | zero => exact ⟨rfl, h⟩
  | succ fuel ih =>
    obtain ⟨hline, hrest⟩ := Readlines.Same.next h
    unfold nextRow
    rcases hg : r.lines.next with ⟨line, lines⟩
    rcases hg' : r'.lines.next with ⟨line', lines'⟩
    rw [hg, hg'] at hline hrest
    obtain rfl : line = line' := hline
    cases line with
    | none =>
      rcases parser.finish state with _ | (e | row)
      · exact ⟨rfl, hrest⟩
      · exact ⟨rfl, hrest⟩
      · exact ⟨rfl, hrest⟩
    | some line =>
      dsimp only
      rcases parser.feed state line with e | (state₁ | row)
      · exact ⟨rfl, hrest⟩
      · exact ih hrest
      · exact ⟨rfl, hrest⟩

/-- A reader stops at the end of the file only: the loop has turns enough. -/
theorem nextRow_stop (hr : r.lines.Honest) (hfuel : r.lines.f.unread.length < fuel)
    (h : (r.nextRow parser fuel state).1 = .stop) : (r.nextRow parser fuel state).2.lines.AtEnd := by
  induction fuel generalizing r state with
  | zero => exact absurd hfuel (Nat.not_lt_zero _)
  | succ fuel ih =>
    by_cases hend : r.lines.AtEnd
    · exact nextRow_invariant parser (fun g hg => hg.next) hend
    · have hnext := Readlines.next_of_not_atEnd hr hend
      have hshort := Readlines.unread_next hr hend
      have hhonest := hr.next
      unfold nextRow at h ⊢
      rw [hnext] at h hshort hhonest ⊢
      simp only at h ⊢
      rcases hfeed : parser.feed state r.lines.f.readline.1 with e | (state₁ | row)
      · rw [hfeed] at h
        cases h
      · rw [hfeed] at h
        exact ih hhonest (by simp only at hshort ⊢; omega) h
      · rw [hfeed] at h
        cases h

theorem next_invariant {I : Readlines → Prop} (h : ∀ g, I g → I g.next.2) (hr : I r.lines) :
    I (r.next parser).2.lines :=
  nextRow_invariant parser h hr

theorem next_same (h : r.Same r') : (r.next parser).1 = (r'.next parser).1 ∧
    (r.next parser).2.Same (r'.next parser).2 := by
  unfold next
  rw [h.1]
  exact nextRow_same parser h

theorem next_of_atEnd (h : r.lines.AtEnd) : (r.next parser).1 = .stop := by
  unfold next nextRow
  rw [Readlines.next_of_atEnd h]
  dsimp only
  rw [parser.finish_start]

theorem next_stop (hr : r.lines.Honest) (h : (r.next parser).1 = .stop) :
    (r.next parser).2.lines.AtEnd :=
  nextRow_stop parser hr (Nat.lt_succ_self _) h

/-- A row takes some of the file. -/
theorem unread_next (hr : r.lines.Honest) {row : List F} (h : (r.next parser).1 = .item row) :
    (r.next parser).2.lines.f.unread.length < r.lines.f.unread.length := by
  have hend : ¬ r.lines.AtEnd := by
    intro hend
    rw [next_of_atEnd parser hend] at h
    cases h
  have hshort := Readlines.unread_next hr hend
  have hhonest := hr.next
  -- No line makes the file longer again.
  have hstep : ∀ g : Readlines, g.Honest ∧ g.f.unread.length < r.lines.f.unread.length →
      g.next.2.Honest ∧ g.next.2.f.unread.length < r.lines.f.unread.length := by
    rintro g ⟨hg, hlt⟩
    refine ⟨hg.next, ?_⟩
    by_cases hgend : g.AtEnd
    · rw [Readlines.next_of_atEnd hgend]
      exact hlt
    · exact (Readlines.unread_next hg hgend).trans hlt
  unfold next nextRow
  rw [Readlines.next_of_not_atEnd hr hend] at hshort hhonest ⊢
  dsimp only at hshort hhonest ⊢
  rcases parser.feed parser.start r.lines.f.readline.1 with e | (state₁ | row)
  · exact hshort
  · exact (nextRow_invariant parser hstep ⟨hhonest, hshort⟩).2
  · exact hshort

variable {row : List F}

theorem skipBlank_invariant {I : Readlines → Prop} (fuel : Nat) (row : List F)
    (h : ∀ g, I g → I g.next.2) (hr : I r.lines) :
    I (r.skipBlank parser fuel row).2.lines := by
  induction fuel generalizing r row with
  | zero => exact hr
  | succ fuel ih =>
    have hnext := next_invariant parser h hr
    unfold skipBlank
    split
    · rcases hn : r.next parser with ⟨row₁ | _ | e, r₁⟩
      · rw [hn] at hnext
        exact ih row₁ hnext
      · rw [hn] at hnext
        exact hnext
      · rw [hn] at hnext
        exact hnext
    · exact hr

theorem skipBlank_same (fuel : Nat) (row : List F) (h : r.Same r') :
    (r.skipBlank parser fuel row).1 = (r'.skipBlank parser fuel row).1 ∧
      (r.skipBlank parser fuel row).2.Same (r'.skipBlank parser fuel row).2 := by
  induction fuel generalizing r r' row with
  | zero => exact ⟨rfl, h⟩
  | succ fuel ih =>
    obtain ⟨hresult, hrest⟩ := next_same parser h
    unfold skipBlank
    split
    · rcases hn : r.next parser with ⟨x, r₁⟩
      rcases hn' : r'.next parser with ⟨x', r₁'⟩
      rw [hn, hn'] at hresult hrest
      obtain rfl : x = x' := hresult
      cases x with
      | item row₁ => exact ih row₁ hrest
      | stop => exact ⟨rfl, hrest⟩
      | error e => exact ⟨rfl, hrest⟩
    · exact ⟨rfl, h⟩

/-- Blank rows are skipped up to the end of the file: the loop has turns enough. -/
theorem skipBlank_stop (row : List F) (hr : r.lines.Honest) (hfuel : r.lines.f.unread.length < fuel)
    (h : (r.skipBlank parser fuel row).1 = .stop) :
    (r.skipBlank parser fuel row).2.lines.AtEnd := by
  induction fuel generalizing r row with
  | zero => exact absurd hfuel (Nat.not_lt_zero _)
  | succ fuel ih =>
    have hhonest := next_invariant parser (fun _ => Readlines.Honest.next) hr
    have hstop := next_stop parser hr
    have hshort := fun row => @unread_next F parser r hr row
    unfold skipBlank at h ⊢
    split at h
    · rename_i hblank
      rw [if_pos hblank]
      rcases hn : r.next parser with ⟨row₁ | _ | e, r₁⟩
      · rw [hn] at h hhonest hshort
        have hlt := hshort row₁ rfl
        exact ih row₁ hhonest (by dsimp only at hlt; omega) h
      · rw [hn] at hstop
        exact hstop rfl
      · rw [hn] at h
        cases h
    · cases h

end CsvReader

/-! ### Records -/

namespace DictReader

variable {F V : Type} (parser : RowParser F) {d d' : DictReader F V}

/-- The whole file has been read. -/
def AtEnd (d : DictReader F V) : Prop := d.reader.lines.AtEnd

/-- Readers with one header at one position of one file. -/
structure Same (d d' : DictReader F V) : Prop where
  fieldnames : d.fieldnames = d'.fieldnames
  params : d.params = d'.params
  reader : d.reader.Same d'.reader
  known : d.fieldnames.isSome = true

theorem getFieldnames_of_some {names : List F} (h : d.fieldnames = some names) :
    d.getFieldnames parser = (.ok (some names), { d with lineNum := d.reader.lineNum }) := by
  rw [getFieldnames, h]

theorem getFieldnames_invariant {I : Readlines → Prop} (h : ∀ g, I g → I g.next.2)
    (hd : I d.reader.lines) : I (d.getFieldnames parser).2.reader.lines := by
  have hnext := d.reader.next_invariant parser h hd
  unfold getFieldnames
  cases d.fieldnames with
  | some names => exact hd
  | none =>
    rcases hn : d.reader.next parser with ⟨row | _ | e, reader⟩
    · rw [hn] at hnext
      exact hnext
    · rw [hn] at hnext
      exact hnext
    · rw [hn] at hnext
      exact hnext

/-- At the end of the file the header stays as it is. -/
theorem getFieldnames_of_atEnd (h : d.AtEnd) :
    (d.getFieldnames parser).1 = .ok d.fieldnames := by
  unfold getFieldnames
  cases d.fieldnames with
  | some names => rfl
  | none =>
    have hstop := d.reader.next_of_atEnd parser h
    rcases hn : d.reader.next parser with ⟨x, reader⟩
    rw [hn] at hstop
    obtain rfl : x = .stop := hstop
    rfl

/-- A header that is not there means that there is nothing. -/
theorem getFieldnames_none (hd : d.reader.lines.Honest)
    (hok : (d.getFieldnames parser).1 = .ok none) : (d.getFieldnames parser).2.AtEnd := by
  have hstop := d.reader.next_stop parser hd
  unfold getFieldnames at hok ⊢
  rcases hf : d.fieldnames with _ | names
  · rw [hf] at hok
    rcases hn : d.reader.next parser with ⟨row | _ | e, r₁⟩
    · rw [hn] at hok
      cases hok
    · rw [hn] at hstop
      exact hstop rfl
    · rw [hn] at hok
      cases hok
  · rw [hf] at hok
    cases hok

/-- The header is kept once it is read. -/
theorem getFieldnames_ok {names : Option (List F)} (hok : (d.getFieldnames parser).1 = .ok names) :
    (d.getFieldnames parser).2.fieldnames = names ∧
      (d.getFieldnames parser).2.params = d.params := by
  unfold getFieldnames at hok ⊢
  rcases hf : d.fieldnames with _ | names'
  · rw [hf] at hok
    rcases hn : d.reader.next parser with ⟨row | _ | e, r₁⟩
    · rw [hn] at hok
      exact ⟨Except.ok.inj hok, rfl⟩
    · rw [hn] at hok
      exact ⟨Except.ok.inj hok, rfl⟩
    · rw [hn] at hok
      cases hok
  · rw [hf] at hok
    exact ⟨Except.ok.inj hok, rfl⟩

variable [DecidableEq F]

theorem nextRecord_invariant {I : Readlines → Prop} (h : ∀ g, I g → I g.next.2)
    (hd : I d.reader.lines) : I (d.nextRecord parser).2.reader.lines := by
  have hnext := d.reader.next_invariant parser h hd
  unfold nextRecord
  rcases hn : d.reader.next parser with ⟨row | _ | e, reader⟩
  · rw [hn] at hnext
    have hskip := reader.skipBlank_invariant parser (reader.lines.f.unread.length + 1) row h
      hnext
    dsimp only
    rcases hs : reader.skipBlank parser (reader.lines.f.unread.length + 1) row with
      ⟨row₁ | _ | e, reader₁⟩
    · rw [hs] at hskip
      have hnames := getFieldnames_invariant parser (d := ⟨d.fieldnames, d.params, reader₁,
        reader.lineNum⟩) h hskip
      dsimp only
      rcases hg : getFieldnames parser (⟨d.fieldnames, d.params, reader₁, reader.lineNum⟩ :
        DictReader F V) with ⟨e | (_ | names), d₁⟩
      · rw [hg] at hnames
        exact hnames
      · rw [hg] at hnames
        exact hnames
      · rw [hg] at hnames
        exact hnames
    · rw [hs] at hskip
      exact hskip
    · rw [hs] at hskip
      exact hskip
  · rw [hn] at hnext
    exact hnext
  · rw [hn] at hnext
    exact hnext

theorem next_invariant {I : Readlines → Prop} (h : ∀ g, I g → I g.next.2)
    (hd : I d.reader.lines) : I (d.next parser).2.reader.lines := by
  unfold next
  split
  · have hnames := getFieldnames_invariant parser h hd
    rcases hg : d.getFieldnames parser with ⟨e | names, d₁⟩
    · rw [hg] at hnames
      exact hnames
    · rw [hg] at hnames
      exact nextRecord_invariant parser h hnames
  · exact nextRecord_invariant parser h hd

theorem nextRecord_of_atEnd (h : d.AtEnd) : (d.nextRecord parser).1 = .stop := by
  have hstop := d.reader.next_of_atEnd parser h
  unfold nextRecord
  rcases hn : d.reader.next parser with ⟨x, reader⟩
  rw [hn] at hstop
  obtain rfl : x = .stop := hstop
  rfl

theorem exhausted_next : Exhausted (next parser) (AtEnd (F := F) (V := V)) := by
  refine ⟨fun d hd => ?_, fun d hd => next_invariant parser (fun _ hg => hg.next) hd⟩
  unfold next
  split
  · have hnames := getFieldnames_of_atEnd parser hd
    have hend : (d.getFieldnames parser).2.AtEnd :=
      getFieldnames_invariant parser (fun _ hg => hg.next) hd
    rcases hg : d.getFieldnames parser with ⟨x, d₁⟩
    rw [hg] at hnames hend
    obtain rfl : x = .ok d.fieldnames := hnames
    exact nextRecord_of_atEnd parser hend
  · exact nextRecord_of_atEnd parser hd

/-- Where the header is known, `line_num` does not matter. -/
theorem next_of_known (h : d.fieldnames.isSome = true) :
    ∃ lineNum, d.next parser = nextRecord parser { d with lineNum } := by
  obtain ⟨names, hnames⟩ := Option.isSome_iff_exists.mp h
  unfold next
  split
  · rw [getFieldnames_of_some parser hnames]
    exact ⟨_, rfl⟩
  · exact ⟨d.lineNum, rfl⟩

/-- Readers with one header at one position give the same record, and are at one position behind
it. -/
theorem Same.nextRecord (h : d.Same d') :
    (d.nextRecord parser).1 = (d'.nextRecord parser).1 ∧
      (d.nextRecord parser).2.Same (d'.nextRecord parser).2 := by
  obtain ⟨fieldnames, params, r, lineNum⟩ := d
  obtain ⟨fieldnames', params', r', lineNum'⟩ := d'
  obtain ⟨rfl, rfl, hreader, hknown⟩ := h
  obtain ⟨names, rfl⟩ := Option.isSome_iff_exists.mp hknown
  obtain ⟨hresult, hrest⟩ := CsvReader.next_same parser hreader
  unfold DictReader.nextRecord
  dsimp only
  rcases hn : r.next parser with ⟨x, r₁⟩
  rcases hn' : r'.next parser with ⟨x', r₁'⟩
  rw [hn, hn'] at hresult hrest
  obtain rfl : x = x' := hresult
  cases x with
  | stop => exact ⟨rfl, rfl, rfl, hrest, rfl⟩
  | error e => exact ⟨rfl, rfl, rfl, hrest, rfl⟩
  | item row =>
    have hfile : r₁.lines.f = r₁'.lines.f := hrest.1
    dsimp only
    rw [hfile]
    obtain ⟨hresult₁, hrest₁⟩ := CsvReader.skipBlank_same parser
      (r₁'.lines.f.unread.length + 1) row hrest
    rcases hs : r₁.skipBlank parser (r₁'.lines.f.unread.length + 1) row with ⟨y, r₂⟩
    rcases hs' : r₁'.skipBlank parser (r₁'.lines.f.unread.length + 1) row with ⟨y', r₂'⟩
    rw [hs, hs'] at hresult₁ hrest₁
    obtain rfl : y = y' := hresult₁
    cases y with
    | stop => exact ⟨rfl, rfl, rfl, hrest₁, rfl⟩
    | error e => exact ⟨rfl, rfl, rfl, hrest₁, rfl⟩
    | item row₁ => exact ⟨rfl, rfl, rfl, hrest₁, rfl⟩

theorem bisim_next : Bisim (next parser)
    (fun d d' : DictReader F V => d.Same d' ∨ d.AtEnd ∧ d'.AtEnd) := by
  have hpair : ∀ d d' : DictReader F V, d.Same d' ∨ d.AtEnd ∧ d'.AtEnd →
      (d.next parser).1 = (d'.next parser).1 ∧ ((d.next parser).2.Same (d'.next parser).2 ∨
        (d.next parser).2.AtEnd ∧ (d'.next parser).2.AtEnd) := by
    rintro d d' (h | ⟨hd, hd'⟩)
    · obtain ⟨n, hn⟩ := next_of_known parser h.known
      obtain ⟨n', hn'⟩ := next_of_known parser (h.fieldnames ▸ h.known)
      have hsame : ({ d with lineNum := n } : DictReader F V).Same { d' with lineNum := n' } :=
        ⟨h.fieldnames, h.params, h.reader, h.known⟩
      rw [hn, hn']
      obtain ⟨hresult, hrest⟩ := hsame.nextRecord parser
      exact ⟨hresult, .inl hrest⟩
    · have hE := exhausted_next (V := V) parser
      exact ⟨(hE.stop d hd).trans (hE.stop d' hd').symm, .inr ⟨hE.stays d hd, hE.stays d' hd'⟩⟩
  exact ⟨fun d d' h => (hpair d d' h).1, fun d d' h => (hpair d d' h).2⟩

/-- Behind the header, a reader keeps it until the end of the file. -/
theorem next_known (h : d.fieldnames.isSome = true) :
    (d.next parser).2.fieldnames = d.fieldnames ∧ (d.next parser).2.params = d.params := by
  obtain ⟨n, hn⟩ := next_of_known parser h
  obtain ⟨fieldnames, params, r, lineNum⟩ := d
  obtain ⟨names, rfl⟩ := Option.isSome_iff_exists.mp h
  rw [hn]
  unfold nextRecord
  dsimp only
  rcases r.next parser with ⟨row | _ | e, r₁⟩
  · dsimp only
    rcases r₁.skipBlank parser (r₁.lines.f.unread.length + 1) row with ⟨row₁ | _ | e, r₂⟩
    · exact ⟨rfl, rfl⟩
    · exact ⟨rfl, rfl⟩
    · exact ⟨rfl, rfl⟩
  · exact ⟨rfl, rfl⟩
  · exact ⟨rfl, rfl⟩

/-- Readers stop at the end of the file only. -/
theorem nextRecord_stop (hd : d.reader.lines.Honest) (h : (d.nextRecord parser).1 = .stop) :
    (d.nextRecord parser).2.AtEnd := by
  have hstop := d.reader.next_stop parser hd
  have hhonest := d.reader.next_invariant parser (fun _ => Readlines.Honest.next) hd
  unfold nextRecord at h ⊢
  rcases hn : d.reader.next parser with ⟨row | _ | e, r₁⟩
  · rw [hn] at h hhonest
    have hskip := r₁.skipBlank_stop parser row hhonest (Nat.lt_succ_self _)
    dsimp only at h ⊢
    rcases hs : r₁.skipBlank parser (r₁.lines.f.unread.length + 1) row with ⟨row₁ | _ | e, r₂⟩
    · rw [hs] at h
      dsimp only at h
      rcases hg : getFieldnames parser (⟨d.fieldnames, d.params, r₂, r₁.lineNum⟩ :
        DictReader F V) with ⟨e | (_ | names), d₁⟩
      · rw [hg] at h
        cases h
      · rw [hg] at h
        cases h
      · rw [hg] at h
        cases h
    · rw [hs] at hskip
      exact hskip rfl
    · rw [hs] at h
      cases h
  · rw [hn] at hstop
    exact hstop rfl
  · rw [hn] at h
    cases h

theorem next_stop (hd : d.reader.lines.Honest) (h : (d.next parser).1 = .stop) :
    (d.next parser).2.AtEnd := by
  have hhonest := getFieldnames_invariant parser (fun _ => Readlines.Honest.next) hd
  unfold next at h ⊢
  split at h
  · rename_i hzero
    rw [if_pos hzero]
    rcases hg : d.getFieldnames parser with ⟨e | names, d₁⟩
    · rw [hg] at h
      cases h
    · rw [hg] at h hhonest
      exact nextRecord_stop parser hhonest h
  · rename_i hzero
    rw [if_neg hzero]
    exact nextRecord_stop parser hd h

end DictReader

/-! ### The rebuilt partition goes on with the next row -/

namespace CSVPartition

variable {F V : Type} [DecidableEq F] (parser : RowParser F) {content : List Char}
  {fmtparams : FmtParams F V} {batchSize : Nat} {p : CSVPartition F V} {d d₀ : DictReader F V}

omit [DecidableEq F] in
theorem header_eq_ok (h : header parser content fmtparams = .ok d₀) :
    Readlines.Over content false d₀.reader.lines ∧ (d₀.fieldnames = none → d₀.AtEnd) := by
  have hover : Readlines.Over content false ⟨TextFile.openText content false, false⟩ :=
    ⟨rfl, rfl, fun hfin => nomatch hfin⟩
  unfold header at h
  dsimp only at h
  generalize hd : (⟨fmtparams.fieldnames, fmtparams,
    ⟨⟨TextFile.openText content false, false⟩, 0⟩, 0⟩ : DictReader F V) = d at h
  replace hover : Readlines.Over content false d.reader.lines := hd ▸ hover
  rcases hg : d.getFieldnames parser with ⟨e | names, d₁⟩
  · rw [hg] at h
    cases h
  · rw [hg] at h
    cases h
    have hd₀ := DictReader.getFieldnames_invariant parser (fun _ => Readlines.Over.next) hover
    have hend := DictReader.getFieldnames_none parser hover.honest
    have hkept := @DictReader.getFieldnames_ok F V parser d names
    rw [hg] at hd₀ hend hkept
    refine ⟨hd₀, fun hnone => hend ?_⟩
    rw [← hnone, (hkept rfl).1]

/-- A reader behind the header `d₀` of a file: at the end, or with the header that was read. -/
structure Behind (content : List Char) (d₀ d : DictReader F V) : Prop where
  lines : Readlines.Over content false d.reader.lines
  header : d.AtEnd ∨ d.fieldnames = d₀.fieldnames ∧ d.params = d₀.params ∧
    d₀.fieldnames.isSome = true ∧ d₀.reader.lines.finished = false

theorem Behind.next (h : Behind content d₀ d) : Behind content d₀ (d.next parser).2 := by
  refine ⟨d.next_invariant parser (fun _ => Readlines.Over.next) h.lines, ?_⟩
  rcases h.header with hend | ⟨hnames, hparams, hknown, hopen⟩
  · exact .inl ((DictReader.exhausted_next parser).stays d hend)
  · obtain ⟨hnames', hparams'⟩ := d.next_known parser (hnames ▸ hknown)
    exact .inr ⟨hnames'.trans hnames, hparams'.trans hparams, hknown, hopen⟩

omit [DecidableEq F] in
theorem new_of_header (h : header parser content fmtparams = .ok d₀) (resumeState : Option Nat) :
    new parser content fmtparams resumeState = .ok ⟨match resumeState with
      | some position => seek d₀ position
      | none => d₀, false⟩ := by
  rw [new, h]
  rfl

omit [DecidableEq F] in
theorem exists_header {resumeState : Option Nat} (h : new parser content fmtparams resumeState = .ok p) :
    ∃ d₀, header parser content fmtparams = .ok d₀ := by
  cases hh : header parser content fmtparams with
  | ok d₀ => exact ⟨d₀, rfl⟩
  | error e =>
    rw [new, hh] at h
    cases h

omit [DecidableEq F] in
/-- The reader of a rebuilt partition is at the position of the snapshot. -/
theorem Behind.seek (h : Behind content d₀ d) (h₀ : Readlines.Over content false d₀.reader.lines) :
    (seek d₀ d.reader.lines.f.tell).reader.lines.f = d.reader.lines.f ∧
      Behind content d₀ (seek d₀ d.reader.lines.f.tell) := by
  have hf : (CSVPartition.seek d₀ d.reader.lines.f.tell).reader.lines.f = d.reader.lines.f := by
    obtain ⟨names, params, ⟨⟨⟨content', translate, position⟩, finished⟩, n⟩, m⟩ := d
    obtain ⟨names₀, params₀, ⟨⟨⟨content₀, translate₀, position₀⟩, finished₀⟩, n₀⟩, m₀⟩ := d₀
    obtain rfl : content' = content := h.lines.content
    obtain rfl : translate = false := h.lines.translate
    obtain rfl : content₀ = content' := h₀.content
    obtain rfl : translate₀ = false := h₀.translate
    rfl
  have hend : d.AtEnd → (CSVPartition.seek d₀ d.reader.lines.f.tell).AtEnd := fun hend =>
    (congrArg TextFile.unread hf).trans hend
  refine ⟨hf, ⟨h₀.content, h₀.translate, fun hfin => ?_⟩, ?_⟩
  · rcases h.header with hd | ⟨-, -, -, hopen⟩
    · exact hend hd
    · exact absurd (hopen.symm.trans hfin) Bool.false_ne_true
  · rcases h.header with hd | ⟨-, -, hknown, hopen⟩
    · exact .inl (hend hd)
    · exact .inr ⟨rfl, rfl, hknown, hopen⟩

/-- What holds of the partitions of a file. -/
theorem Reachable.behind (hsize : 0 < batchSize) (h₀ : header parser content fmtparams = .ok d₀)
    (h : Reachable parser content fmtparams batchSize p) :
    Behind content d₀ p.it ∧ (p.finished = true → p.it.AtEnd) := by
  obtain ⟨hover₀, hnone₀⟩ := header_eq_ok parser h₀
  induction h with
  | new hp =>
    rw [new_of_header parser h₀] at hp
    cases hp
    refine ⟨⟨hover₀, ?_⟩, fun hfin => nomatch hfin⟩
    cases hnames : d₀.fieldnames with
    | none => exact .inl (hnone₀ hnames)
    | some names =>
      cases hfin : d₀.reader.lines.finished with
      | true => exact .inl (hover₀.honest hfin)
      | false => exact .inr ⟨rfl, rfl, rfl, rfl⟩
  | resume h hq ih =>
    rw [new_of_header parser h₀] at hq
    cases hq
    exact ⟨(ih.1.seek hover₀).2, fun hfin => nomatch hfin⟩
  | @nextBatch p h hok ih =>
    refine ⟨batch_invariant (fun _ => Behind.next parser) ih.1, fun hfin => ?_⟩
    exact finished_batch (I := Behind content d₀)
      (fun d hd hstop => DictReader.next_stop parser hd.lines.honest hstop) ih.1 ih.2 hsize hok hfin

/-- **The rebuilt partition gives what the original would have given.** -/
theorem pulls_resume (hsize : 0 < batchSize)
    (h : Reachable parser content fmtparams batchSize p) :
    ∃ q, new parser content fmtparams (some p.snapshot) = .ok q ∧ ∀ m,
      pulls (nextBatch parser batchSize) m q = pulls (nextBatch parser batchSize) m p := by
  obtain ⟨d₀, h₀⟩ : ∃ d₀, header parser content fmtparams = .ok d₀ := by
    induction h with
    | new hp => exact exists_header parser hp
    | resume h hq ih => exact ih
    | nextBatch h hok ih => exact ih
  obtain ⟨hbehind, hfin⟩ := h.behind parser hsize h₀
  obtain ⟨hf, hseek⟩ := hbehind.seek (header_eq_ok parser h₀).1
  refine ⟨_, new_of_header parser h₀ _, fun m => ?_⟩
  apply ((DictReader.bisim_next parser).batch (DictReader.exhausted_next parser)).pulls
  by_cases hend : p.it.AtEnd
  · exact .inr ⟨(congrArg TextFile.unread hf).trans hend, hend⟩
  · obtain ⟨hnames, hparams, hknown, hopen⟩ := hbehind.header.resolve_left hend
    have hlines : p.it.reader.lines.finished = false := by
      rw [← Bool.not_eq_true]
      exact fun hfinished => hend (hbehind.lines.honest hfinished)
    have hover : p.finished = false := by
      rw [← Bool.not_eq_true]
      exact fun hfinished => hend (hfin hfinished)
    refine .inl ⟨.inl ⟨hnames.symm, hparams.symm, ⟨hf, .inl ?_⟩, hknown⟩, hover.symm⟩
    exact hopen.trans hlines.symm

end CSVPartition
/-! ### Both kinds of files -/

/-- **Files resume at the next record**: a partition that is rebuilt from the snapshot of another
gives in its next calls what the other would have given, whatever the file, the batch size and the
calls before the snapshot; and so for each way to make rows of the lines of a CSV file. -/
theorem resumes_at_next_record (content : List Char) {batchSize : Nat} (h : 0 < batchSize) :
    (∀ p, FileSourcePartition.Reachable content batchSize p → ∀ m,
      pulls (FileSourcePartition.nextBatch batchSize) m (.new content (some p.snapshot)) =
        pulls (FileSourcePartition.nextBatch batchSize) m p) ∧
    ∀ (F V : Type) [DecidableEq F] (parser : RowParser F) (fmtparams : FmtParams F V) p,
      CSVPartition.Reachable parser content fmtparams batchSize p →
      ∃ q, CSVPartition.new parser content fmtparams (some p.snapshot) = .ok q ∧ ∀ m,
        pulls (CSVPartition.nextBatch parser batchSize) m q =
          pulls (CSVPartition.nextBatch parser batchSize) m p :=
  ⟨fun _ hp m => FileSourcePartition.pulls_resume h hp m,
    fun _ _ _ parser _ _ hp => CSVPartition.pulls_resume parser h hp⟩

/-- A header, a row with a line feed in a quoted field, a blank line and another row. -/
def quotedRows : List Char := "a,b\n1,\"x\ny\"\n\n2,z\n".toList

/-- Without arguments for `DictReader`. -/
def noParams : FmtParams (List Char) Unit := ⟨none, none, ()⟩

/-- After the header and the row with the line feed, what is left is the row behind the blank line.
Read line by line, the header leaves the two halves of that row, the blank line and the last one. -/
theorem resumes_at_next_record_quotedRows :
    (∃ p q, CSVPartition.Reachable Csv.excel.parser quotedRows noParams 1 p ∧ p.snapshot = 12 ∧
      ((pulls (CSVPartition.nextBatch Csv.excel.parser 1) 2 p).filterMap Next.item?).flatten.map
        Dict.entries = [[(some ['a'], .field ['2']), (some ['b'], .field ['z'])]] ∧
      CSVPartition.new Csv.excel.parser quotedRows noParams (some 12) = .ok q ∧
      ∀ m, pulls (CSVPartition.nextBatch Csv.excel.parser 1) m q =
        pulls (CSVPartition.nextBatch Csv.excel.parser 1) m p) ∧
    ∃ p, FileSourcePartition.Reachable quotedRows 1 p ∧ p.snapshot = 4 ∧
      (pulls (FileSourcePartition.nextBatch 1) 5 p).map Next.item? =
        [some ["1,\"x".toList], some ["y\"".toList], some [[]], some ["2,z".toList], none] ∧
      ∀ m, pulls (FileSourcePartition.nextBatch 1) m (.new quotedRows (some 4)) =
        pulls (FileSourcePartition.nextBatch 1) m p := by
  obtain ⟨hfile, hcsv⟩ := resumes_at_next_record quotedRows Nat.one_pos
  constructor
  · have hnew : (CSVPartition.new Csv.excel.parser quotedRows noParams none).toOption.map
        (fun p => ((p.nextBatch Csv.excel.parser 1).2.snapshot,
          (p.nextBatch Csv.excel.parser 1).1.item?.isSome)) = some (12, true) := by
      decide +kernel
    have hrows : ∀ p ∈ (CSVPartition.new Csv.excel.parser quotedRows noParams none).toOption,
        ((pulls (CSVPartition.nextBatch Csv.excel.parser 1) 2
          (p.nextBatch Csv.excel.parser 1).2).filterMap Next.item?).flatten.map Dict.entries =
          [[(some ['a'], .field ['2']), (some ['b'], .field ['z'])]] := by
      decide +kernel
    cases hp : CSVPartition.new Csv.excel.parser quotedRows noParams none with
    | error e =>
      rw [hp] at hnew
      cases hnew
    | ok p =>
      rw [hp] at hnew
      obtain ⟨hsnap, hitem⟩ := Prod.mk.inj (Option.some.inj hnew)
      have hreached : CSVPartition.Reachable Csv.excel.parser quotedRows noParams 1
          (p.nextBatch Csv.excel.parser 1).2 := .nextBatch (.new hp) (Next.ne_error hitem)
      obtain ⟨q, hq, hpulls⟩ := hcsv _ _ Csv.excel.parser noParams _ hreached
      rw [hsnap] at hq
      exact ⟨_, q, hreached, hsnap, hrows p (by rw [hp]; rfl), hq, hpulls⟩
  · exact ⟨((FileSourcePartition.new quotedRows none).nextBatch 1).2, .nextBatch .new,
      by decide +kernel, by decide +kernel, hfile _ (.nextBatch .new)⟩

end Bytewax
