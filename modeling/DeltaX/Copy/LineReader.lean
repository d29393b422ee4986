import Mathlib.Data.List.Infix
import Mathlib.Tactic.Common
/-!
# Lines of COPY input

`CopyLineReader` cuts the input of a COPY into lines.  The first line end decides
which one the file uses.  Input arrives in pieces: after `Incomplete` the caller puts
the next piece behind the bytes that are left and asks again.  A carriage return at
the very end of a piece is taken for a whole line end before the next byte is seen,
unless line feeds are known to follow, and this module says exactly when that makes
a difference.
-/

namespace DeltaX.Copy

inductive Eol
  | lf | cr | crLf
deriving DecidableEq, Repr

/-- The bytes before the first line end, its first byte, and what stands behind.  A
backslash takes the byte after it along. -/
def scanLine : List UInt8 → Option (List UInt8 × UInt8 × List UInt8)
  | [] => none
  | b :: data =>
      if b = 92 then
        match data with
        | [] => none
        | c :: data => (scanLine data).map fun r => (b :: c :: r.1, r.2)
      else if b = 10 ∨ b = 13 then some ([], b, data)
      else (scanLine data).map fun r => (b :: r.1, r.2)

/-- `LineResult`, with the line and the unconsumed bytes in place of offsets, the line
end that was found, and the panic on inconsistent line endings as a result. -/
inductive LineResult
  | row (line : List UInt8) (eol : Eol) (rest : List UInt8)
  | endOfCopy
  | incomplete
  | inconsistent (expected got : Eol)
deriving DecidableEq, Repr

def eocMarker : List UInt8 := [92, 46]

def checkEndOfCopy (line : List UInt8) (eol : Eol) (rest : List UInt8) : LineResult :=
  if line = eocMarker then .endOfCopy else .row line eol rest

/-- The line end a terminating byte starts. -/
def eolAt (b : UInt8) (rest : List UInt8) : Eol :=
  if b = 10 then .lf else if rest.head? = some 10 then .crLf else .cr

/-- `next_line` once the line end is found. -/
def finishLine (eol : Option Eol) (line : List UInt8) (b : UInt8) (rest : List UInt8) :
    LineResult :=
  let got := eolAt b rest
  let next := if got = .crLf then rest.tail else rest
  match eol with
  | none => checkEndOfCopy line got next
  | some expected =>
      if expected = got then checkEndOfCopy line got next
      else if b = 13 ∧ expected = .crLf ∧ rest = [] then .incomplete
      else .inconsistent expected got

/-- `CopyLineReader::next_line`. -/
def nextLine (eol : Option Eol) (data : List UInt8) : LineResult :=
  match scanLine data with
  | none => .incomplete
  | some (line, b, rest) => finishLine eol line b rest

/-! ## The loop of the caller -/

/-- How the lines of a buffer end: more data is needed behind the rest, the marker was
read, or the line endings of line `line` are inconsistent. -/
inductive Stop
  | pending (eol : Option Eol) (lineNumber : ℕ) (rest : List UInt8)
  | endOfCopy
  | inconsistent (line : ℕ) (expected : Eol)
deriving DecidableEq, Repr

/-! ## Scanning -/

/-- None of the stops but behind a backslash, and no backslash at the end. -/
inductive Paired (stop : UInt8 → Prop) : List UInt8 → Prop
  | nil : Paired stop []
  | escaped (c : UInt8) {bytes : List UInt8} : Paired stop bytes → Paired stop (92 :: c :: bytes)
  | plain {b : UInt8} {bytes : List UInt8} :
      b ≠ 92 → ¬ stop b → Paired stop bytes → Paired stop (b :: bytes)

theorem Paired.append {stop : UInt8 → Prop} {x y : List UInt8} (hx : Paired stop x)
    (hy : Paired stop y) : Paired stop (x ++ y) := by
  induction hx with
  | nil => exact hy
  | escaped c _ ih => exact .escaped c ih
  | plain hesc hstop _ ih => exact .plain hesc hstop ih

/-- A line without a line end in it. -/
def Clean (line : List UInt8) : Prop := Paired (fun b => b = 10 ∨ b = 13) line

theorem scanLine_of_clean {line : List UInt8} (h : Clean line) {b : UInt8}
    (hb : b = 10 ∨ b = 13) (rest : List UInt8) :
    scanLine (line ++ b :: rest) = some (line, b, rest) := by
  induction h with
  | nil =>
      have hesc : b ≠ 92 := by
        rcases hb with rfl | rfl <;> decide
      rw [List.nil_append, scanLine.eq_def]
      simp only [if_neg hesc, if_pos hb]
  | escaped c _ ih => simp only [List.cons_append, scanLine, if_true, ih, Option.map_some]
  | plain hesc hstop _ ih =>
      rw [List.cons_append, scanLine.eq_def]
      simp only [if_neg hesc, if_neg hstop, ih, Option.map_some]

/-- A line is found up to the first line end, and nothing behind is looked at. -/
theorem scanLine_eq_some_iff {data line rest : List UInt8} {b : UInt8} :
    scanLine data = some (line, b, rest) ↔
      Clean line ∧ (b = 10 ∨ b = 13) ∧ data = line ++ b :: rest := by
  constructor
  · intro h
    induction data using scanLine.induct generalizing line with
    | case1 => cases h
    | case2 => cases h
    | case3 c data ih =>
        simp only [scanLine, if_true, Option.map_eq_some_iff] at h
        obtain ⟨⟨l, r⟩, hr, heq⟩ := h
        cases heq
        obtain ⟨hclean, hb, rfl⟩ := ih hr
        exact ⟨.escaped c hclean, hb, rfl⟩
    | case4 b' data hesc hend =>
        rw [scanLine.eq_def] at h
        simp only [if_neg hesc, if_pos hend, Option.some.injEq, Prod.mk.injEq] at h
        obtain ⟨rfl, rfl, rfl⟩ := h
        exact ⟨.nil, hend, rfl⟩
    | case5 b' data hesc hend ih =>
        rw [scanLine.eq_def] at h
        simp only [if_neg hesc, if_neg hend, Option.map_eq_some_iff] at h
        obtain ⟨⟨l, r⟩, hr, heq⟩ := h
        cases heq
        obtain ⟨hclean, hb, rfl⟩ := ih hr
        exact ⟨.plain hesc hend hclean, hb, rfl⟩
  · rintro ⟨hclean, hb, rfl⟩
    exact scanLine_of_clean hclean hb rest

/-- What a row that is returned was read from. -/
theorem nextLine_row {eol : Option Eol} {data line next : List UInt8} {got : Eol}
    (h : nextLine eol data = .row line got next) :
    ∃ b rest, scanLine data = some (line, b, rest) ∧ got = eolAt b rest ∧
      next = (if got = .crLf then rest.tail else rest) ∧ line ≠ eocMarker ∧
      ∀ e, eol = some e → e = got := by
  unfold nextLine finishLine at h
  cases hscan : scanLine data with
  | none =>
      rw [hscan] at h
      cases h
  | some found =>
      obtain ⟨l, b, rest⟩ := found
      simp only [hscan] at h
      have hagree : ∀ e, eol = some e → e = eolAt b rest := by
        rintro e rfl
        by_contra hne
        simp only [if_neg hne] at h
        split at h <;> cases h
      have hcheck : checkEndOfCopy l (eolAt b rest)
          (if eolAt b rest = .crLf then rest.tail else rest) = .row line got next := by
        cases eol with
        | none => exact h
        | some e =>
            simp only [if_pos (hagree e rfl)] at h
            exact h
      unfold checkEndOfCopy at hcheck
      split at hcheck
      · cases hcheck
      · rename_i hne
        cases hcheck
        exact ⟨b, rest, rfl, rfl, rfl, hne, hagree⟩

theorem nextLine_row_length {eol : Option Eol} {data line next : List UInt8} {got : Eol}
    (h : nextLine eol data = .row line got next) : next.length < data.length := by
  obtain ⟨b, rest, hscan, -, rfl, -⟩ := nextLine_row h
  obtain ⟨-, -, rfl⟩ := scanLine_eq_some_iff.mp hscan
  split
  · simp only [List.length_tail, List.length_append, List.length_cons]
    omega
  · simp only [List.length_append, List.length_cons]
    omega

def readBuffer (eol : Option Eol) (lineNumber : ℕ) (data : List UInt8) :
    List (List UInt8) × Stop :=
  match h : nextLine eol data with
  | .row line got next =>
      have : next.length < data.length := nextLine_row_length h
      let more := readBuffer (some got) (lineNumber + 1) next
      (line :: more.1, more.2)
  | .endOfCopy => ([], .endOfCopy)
  | .incomplete => ([], .pending eol lineNumber data)
  | .inconsistent expected _ => ([], .inconsistent (lineNumber + 1) expected)
termination_by data.length

/-- Go on where more data is needed. -/
def resume (read : List (List UInt8) × Stop)
    (go : Option Eol → ℕ → List UInt8 → List (List UInt8) × Stop) : List (List UInt8) × Stop :=
  match read.2 with
  | .pending eol lineNumber rest =>
      (read.1 ++ (go eol lineNumber rest).1, (go eol lineNumber rest).2)
  | stop => (read.1, stop)

/-- The lines of input that arrives in pieces. -/
def readChunks (eol : Option Eol) (lineNumber : ℕ) (buf : List UInt8) :
    List (List UInt8) → List (List UInt8) × Stop
  | [] => readBuffer eol lineNumber buf
  | chunk :: chunks =>
      resume (readBuffer eol lineNumber buf) fun eol lineNumber rest =>
        readChunks eol lineNumber (rest ++ chunk) chunks

section buffer

variable {eol : Option Eol} {data line next : List UInt8} {got expected : Eol} (n : ℕ)

theorem readBuffer_row (h : nextLine eol data = .row line got next) :
    readBuffer eol n data = (line :: (readBuffer (some got) (n + 1) next).1,
      (readBuffer (some got) (n + 1) next).2) := by
  rw [readBuffer]
  split <;> simp_all

theorem readBuffer_endOfCopy (h : nextLine eol data = .endOfCopy) :
    readBuffer eol n data = ([], .endOfCopy) := by
  rw [readBuffer]
  split <;> simp_all

theorem readBuffer_incomplete (h : nextLine eol data = .incomplete) :
    readBuffer eol n data = ([], .pending eol n data) := by
  rw [readBuffer]
  split <;> simp_all

theorem readBuffer_inconsistent (h : nextLine eol data = .inconsistent expected got) :
    readBuffer eol n data = ([], .inconsistent (n + 1) expected) := by
  rw [readBuffer]
  split <;> simp_all

end buffer

/-! ## A cut inside a line end -/

def crLines (lines : List (List UInt8)) : List UInt8 := lines.flatMap fun line => line ++ [13]

/-- The cut behind `data` falls between a carriage return and a line feed that end a
line together, while the reader has seen nothing but carriage returns: `last` is taken
for a whole line, though its line feed is in `more`. -/
structure BadCut (eol : Option Eol) (data more : List UInt8) (lines : List (List UInt8))
    (last : List UInt8) : Prop where
  feed : more.head? = some 10
  returns : eol = none ∨ eol = some .cr
  clean : ∀ line ∈ lines, Clean line ∧ line ≠ eocMarker
  last_clean : Clean last
  data_eq : data = crLines lines ++ (last ++ [13])
  marker : eol = none → lines = [] → last ≠ eocMarker

theorem BadCut.cons {eol : Option Eol} {data more line last : List UInt8}
    {lines : List (List UInt8)} (h : BadCut (some .cr) data more lines last)
    (heol : eol = none ∨ eol = some .cr) (hclean : Clean line) (hne : line ≠ eocMarker) :
    BadCut eol (line ++ 13 :: data) more (line :: lines) last where
  feed := h.feed
  returns := heol
  clean := List.forall_mem_cons.mpr ⟨⟨hclean, hne⟩, h.clean⟩
  last_clean := h.last_clean
  data_eq := by
    rw [h.data_eq]
    simp [crLines]
  marker := by
    rintro - ⟨⟩

/-- Unless the cut is a bad one, more data does not change what is read of a line. -/
inductive Continues (more : List UInt8) : LineResult → LineResult → Prop
  | incomplete (r : LineResult) : Continues more .incomplete r
  | row (line : List UInt8) (got : Eol) (next : List UInt8) :
      Continues more (.row line got next) (.row line got (next ++ more))
  | endOfCopy : Continues more .endOfCopy .endOfCopy
  | inconsistent (expected got got' : Eol) :
      Continues more (.inconsistent expected got) (.inconsistent expected got')

theorem continues_checkEndOfCopy (more line : List UInt8) (got : Eol) (next : List UInt8) :
    Continues more (checkEndOfCopy line got next) (checkEndOfCopy line got (next ++ more)) := by
  unfold checkEndOfCopy
  split
  · exact .endOfCopy
  · exact .row line got next

theorem eolAt_append {b : UInt8} {rest more : List UInt8}
    (h : ¬(b = 13 ∧ rest = [] ∧ more.head? = some 10)) (hb : b = 10 ∨ b = 13) :
    eolAt b (rest ++ more) = eolAt b rest := by
  unfold eolAt
  rcases hb with rfl | rfl
  · rfl
  · rcases rest with - | ⟨c, rest⟩
    · have hmore : more.head? ≠ some 10 := fun hhead => h ⟨rfl, rfl, hhead⟩
      simp [hmore]
    · simp

theorem continues_finishLine {eol : Option Eol} {line rest more : List UInt8} {b : UInt8}
    (hclean : Clean line) (hb : b = 10 ∨ b = 13)
    (hbad : ∀ lines last, ¬ BadCut eol (line ++ b :: rest) more lines last) :
    Continues more (finishLine eol line b rest) (finishLine eol line b (rest ++ more)) := by
  by_cases hcut : b = 13 ∧ rest = [] ∧ more.head? = some 10
  · obtain ⟨rfl, rfl, hfeed⟩ := hcut
    have hgot : eolAt 13 [] = .cr := rfl
    have hgot' : eolAt 13 ([] ++ more) = .crLf := by
      simp [eolAt, hfeed]
    -- the line feed is still to come: only a reader that expects it is not misled
    have hbad' : ∀ _ : eol = none ∨ eol = some .cr, (eol = none → line ≠ eocMarker) → False :=
      fun hret hmark => hbad [] line
        ⟨hfeed, hret, by simp, hclean, by simp [crLines], fun h _ => hmark h⟩
    match eol with
    | none =>
        by_cases hmark : line = eocMarker
        · simp only [finishLine, checkEndOfCopy, if_pos hmark]
          exact .endOfCopy
        · exact (hbad' (Or.inl rfl) fun _ => hmark).elim
    | some .cr => exact (hbad' (Or.inr rfl) (by simp)).elim
    | some .crLf =>
        simp only [finishLine, hgot]
        exact .incomplete _
    | some .lf =>
        simp only [finishLine, hgot, hgot']
        exact .inconsistent .lf .cr .crLf
  · have hgot := eolAt_append hcut hb
    have hnext : (if eolAt b rest = .crLf then (rest ++ more).tail else rest ++ more) =
        (if eolAt b rest = .crLf then rest.tail else rest) ++ more := by
      split
      · rename_i hcrlf
        rcases rest with - | ⟨c, rest⟩
        · simp only [eolAt] at hcrlf
          split at hcrlf <;> simp at hcrlf
        · rfl
      · rfl
    unfold finishLine
    simp only [hgot, hnext]
    match eol with
    | none => exact continues_checkEndOfCopy more line _ _
    | some expected =>
        by_cases heq : expected = eolAt b rest
        · simp only [if_pos heq]
          exact continues_checkEndOfCopy more line _ _
        · simp only [if_neg heq]
          by_cases hwait : b = 13 ∧ expected = .crLf ∧ rest = []
          · rw [if_pos hwait]
            exact .incomplete _
          · rw [if_neg hwait]
            by_cases hwait' : b = 13 ∧ expected = .crLf ∧ rest ++ more = []
            · obtain ⟨h₁, h₂, h₃⟩ := hwait'
              exact (hwait ⟨h₁, h₂, (List.append_eq_nil_iff.mp h₃).1⟩).elim
            · rw [if_neg hwait']
              exact .inconsistent expected _ _

theorem continues_nextLine {eol : Option Eol} {data more : List UInt8}
    (hbad : ∀ lines last, ¬ BadCut eol data more lines last) :
    Continues more (nextLine eol data) (nextLine eol (data ++ more)) := by
  cases hscan : scanLine data with
  | none =>
      simp only [nextLine, hscan]
      exact .incomplete _
  | some found =>
      obtain ⟨line, b, rest⟩ := found
      obtain ⟨hclean, hb, rfl⟩ := scanLine_eq_some_iff.mp hscan
      have hmore : scanLine (line ++ b :: rest ++ more) = some (line, b, rest ++ more) := by
        rw [List.append_assoc, List.cons_append]
        exact scanLine_of_clean hclean hb _
      simp only [nextLine, hscan, hmore]
      exact continues_finishLine hclean hb hbad

/-! ## Reading in pieces -/

/-- A bad cut behind the rest of a buffer is one behind the buffer. -/
theorem BadCut.of_next {eol : Option Eol} {data line next more last : List UInt8} {got : Eol}
    {lines : List (List UInt8)} {x : List UInt8} (h : nextLine eol data = .row line got next)
    (hbad : BadCut (some got) (next ++ x) more lines last) :
    BadCut eol (data ++ x) more (line :: lines) last := by
  obtain ⟨b, rest, hscan, hgot, hnext, hne, hagree⟩ := nextLine_row h
  obtain ⟨hclean, hb, rfl⟩ := scanLine_eq_some_iff.mp hscan
  have hcr : got = .cr := by
    rcases hbad.returns with heq | heq
    · cases heq
    · exact Option.some.inj heq
  rw [hcr, if_neg (by decide)] at hnext
  have hret : b = 13 := by
    rcases hb with rfl | rfl
    · rw [hcr] at hgot
      cases hgot
    · rfl
  have heol : eol = none ∨ eol = some .cr := by
    cases eol with
    | none => exact Or.inl rfl
    | some e => exact Or.inr (by rw [hagree e rfl, hcr])
  rw [hret, List.append_assoc, List.cons_append, ← hnext]
  exact BadCut.cons (hcr ▸ hbad) heol hclean hne

theorem resume_cons (line : List UInt8) (read : List (List UInt8) × Stop)
    (go : Option Eol → ℕ → List UInt8 → List (List UInt8) × Stop) :
    resume (line :: read.1, read.2) go = (line :: (resume read go).1, (resume read go).2) := by
  unfold resume
  cases read.2 <;> rfl

theorem readBuffer_append (eol : Option Eol) (n : ℕ) (data more : List UInt8)
    (hbad : ∀ lines last, ¬ BadCut eol data more lines last) :
    readBuffer eol n (data ++ more) =
      resume (readBuffer eol n data) fun e m rest => readBuffer e m (rest ++ more) := by
  have hcont := continues_nextLine hbad
  generalize hdata : nextLine eol data = r at hcont
  generalize hmore : nextLine eol (data ++ more) = r' at hcont
  cases hcont with
  | incomplete =>
      rw [readBuffer_incomplete n hdata]
      rfl
  | row line got next =>
      have hlen : next.length < data.length := nextLine_row_length hdata
      have hnext : ∀ lines last, ¬ BadCut (some got) next more lines last := by
        intro lines last h
        have h' := BadCut.of_next (x := []) hdata (by rwa [List.append_nil])
        exact hbad _ _ (by rwa [List.append_nil] at h')
      rw [readBuffer_row n hdata, readBuffer_row n hmore, resume_cons,
        readBuffer_append (some got) (n + 1) next more hnext]
  | endOfCopy =>
      rw [readBuffer_endOfCopy n hdata, readBuffer_endOfCopy n hmore]
      rfl
  | inconsistent =>
      rw [readBuffer_inconsistent n hdata, readBuffer_inconsistent n hmore]
      rfl
termination_by data.length

/-- A bad cut further on is still one after the buffer has been read. -/
theorem BadCut.of_pending {eol e : Option Eol} {n m : ℕ} {data rest x more last : List UInt8}
    {lines : List (List UInt8)} (h : (readBuffer eol n data).2 = .pending e m rest)
    (hbad : BadCut e (rest ++ x) more lines last) :
    ∃ lines', BadCut eol (data ++ x) more lines' last := by
  cases hnext : nextLine eol data with
  | row line got next =>
      have hlen : next.length < data.length := nextLine_row_length hnext
      rw [readBuffer_row n hnext] at h
      obtain ⟨lines', hbad'⟩ := BadCut.of_pending h hbad
      exact ⟨line :: lines', BadCut.of_next hnext hbad'⟩
  | endOfCopy =>
      rw [readBuffer_endOfCopy n hnext] at h
      cases h
  | incomplete =>
      rw [readBuffer_incomplete n hnext] at h
      cases h
      exact ⟨lines, hbad⟩
  | inconsistent expected got =>
      rw [readBuffer_inconsistent n hnext] at h
      cases h
termination_by data.length

theorem resume_congr {read : List (List UInt8) × Stop}
    {go go' : Option Eol → ℕ → List UInt8 → List (List UInt8) × Stop}
    (h : ∀ e m rest, read.2 = .pending e m rest → go e m rest = go' e m rest) :
    resume read go = resume read go' := by
  unfold resume
  cases hstop : read.2 with
  | pending e m rest => simp only [h e m rest hstop]
  | endOfCopy => rfl
  | inconsistent => rfl

/-- Without a bad cut the pieces are read as the whole. -/
theorem readChunks_eq (eol : Option Eol) (n : ℕ) (buf : List UInt8) (chunks : List (List UInt8))
    (hbad : ∀ pre post, chunks = pre ++ post →
      ∀ lines last, ¬ BadCut eol (buf ++ pre.flatten) post.flatten lines last) :
    readChunks eol n buf chunks = readBuffer eol n (buf ++ chunks.flatten) := by
  induction chunks generalizing eol n buf with
  | nil => simp [readChunks]
  | cons chunk chunks ih =>
      have hfirst : ∀ lines last, ¬ BadCut eol buf (chunk :: chunks).flatten lines last := by
        intro lines last h
        exact hbad [] (chunk :: chunks) rfl lines last (by simpa using h)
      rw [readBuffer_append eol n buf _ hfirst, readChunks]
      apply resume_congr
      intro e m rest hpending
      rw [ih, List.flatten_cons, List.append_assoc]
      rintro pre post rfl lines last h
      rw [List.append_assoc] at h
      obtain ⟨lines', h'⟩ := BadCut.of_pending hpending h
      exact hbad (chunk :: pre) post rfl lines' last (by simpa using h')

/-! ## What a bad cut does -/

/-- What is left over holds no line. -/
theorem readBuffer_of_pending {eol e : Option Eol} {n m : ℕ} {data rest : List UInt8}
    (h : (readBuffer eol n data).2 = .pending e m rest) :
    readBuffer e m rest = ([], .pending e m rest) := by
  cases hnext : nextLine eol data with
  | row line got next =>
      have hlen : next.length < data.length := nextLine_row_length hnext
      rw [readBuffer_row n hnext] at h
      exact readBuffer_of_pending h
  | endOfCopy =>
      rw [readBuffer_endOfCopy n hnext] at h
      cases h
  | incomplete =>
      rw [readBuffer_incomplete n hnext] at h
      cases h
      exact readBuffer_incomplete n hnext
  | inconsistent expected got =>
      rw [readBuffer_inconsistent n hnext] at h
      cases h
termination_by data.length

theorem resume_resume (read : List (List UInt8) × Stop)
    (f g : Option Eol → ℕ → List UInt8 → List (List UInt8) × Stop) :
    resume (resume read f) g = resume read fun e m rest => resume (f e m rest) g := by
  unfold resume
  cases read.2 with
  | pending e m rest => cases hstop : (f e m rest).2 <;> simp [hstop]
  | endOfCopy => rfl
  | inconsistent => rfl

/-- Not going on leaves what was read. -/
theorem resume_stay (read : List (List UInt8) × Stop) :
    resume read (fun e m rest => ([], .pending e m rest)) = read := by
  obtain ⟨rows, stop⟩ := read
  cases stop <;> simp [resume]

theorem resume_pending (e : Option Eol) (m : ℕ) (rest : List UInt8)
    (f : Option Eol → ℕ → List UInt8 → List (List UInt8) × Stop) :
    resume ([], .pending e m rest) f = f e m rest := rfl

theorem readChunks_append (eol : Option Eol) (n : ℕ) (buf : List UInt8)
    (pre post : List (List UInt8)) :
    readChunks eol n buf (pre ++ post) =
      resume (readChunks eol n buf pre) fun e m rest => readChunks e m rest post := by
  induction pre generalizing eol n buf with
  | nil =>
      cases post with
      | nil =>
          simp only [List.nil_append, readChunks]
          calc readBuffer eol n buf
              = resume (readBuffer eol n buf) (fun e m rest => ([], .pending e m rest)) :=
                (resume_stay _).symm
            _ = resume (readBuffer eol n buf) fun e m rest => readBuffer e m rest :=
                resume_congr fun e m rest h => (readBuffer_of_pending h).symm
      | cons chunk chunks =>
          simp only [List.nil_append, readChunks]
          apply resume_congr
          intro e m rest h
          rw [readBuffer_of_pending h, resume_pending]
  | cons chunk pre ih =>
      rw [List.cons_append, readChunks, readChunks, resume_resume]
      apply resume_congr
      intro e m rest _
      exact ih e m (rest ++ chunk)

/-- Only the line end that was decided on is ever expected. -/
theorem expected_of_inconsistent {e e' : Eol} {n l : ℕ} {data : List UInt8}
    (h : (readBuffer (some e) n data).2 = .inconsistent l e') : e' = e := by
  cases hnext : nextLine (some e) data with
  | row line got next =>
      have hlen : next.length < data.length := nextLine_row_length hnext
      obtain ⟨-, -, -, -, -, -, hagree⟩ := nextLine_row hnext
      rw [readBuffer_row n hnext] at h
      rw [hagree e rfl]
      exact expected_of_inconsistent h
  | endOfCopy =>
      rw [readBuffer_endOfCopy n hnext] at h
      cases h
  | incomplete =>
      rw [readBuffer_incomplete n hnext] at h
      cases h
  | inconsistent expected got =>
      rw [readBuffer_inconsistent n hnext] at h
      cases h
      unfold nextLine finishLine at hnext
      split at hnext
      · cases hnext
      · simp only at hnext
        split at hnext
        · unfold checkEndOfCopy at hnext
          split at hnext <;> cases hnext
        · split at hnext
          · cases hnext
          · cases hnext
            rfl
termination_by data.length

theorem Clean.head_ne {line : List UInt8} (h : Clean line) (rest : List UInt8) :
    (line ++ 13 :: rest).head? ≠ some 10 := by
  cases h with
  | nil => simp
  | escaped => simp
  | plain _ hstop _ => simpa using fun h => hstop (Or.inl h)

theorem readBuffer_crLines {eol : Option Eol} (heol : eol = none ∨ eol = some .cr) (n : ℕ)
    {lines : List (List UInt8)} (hlines : ∀ line ∈ lines, Clean line ∧ line ≠ eocMarker)
    {rest : List UInt8} (hrest : rest.head? ≠ some 10) :
    readBuffer eol n (crLines lines ++ rest) =
      (lines ++ (readBuffer (if lines = [] then eol else some .cr) (n + lines.length) rest).1,
        (readBuffer (if lines = [] then eol else some .cr) (n + lines.length) rest).2) := by
  induction lines generalizing eol n with
  | nil => simp [crLines]
  | cons line lines ih =>
      obtain ⟨⟨hclean, hne⟩, htail⟩ := List.forall_mem_cons.mp hlines
      have hdata : crLines (line :: lines) ++ rest = line ++ 13 :: (crLines lines ++ rest) := by
        simp [crLines]
      have hhead : (crLines lines ++ rest).head? ≠ some 10 := by
        cases lines with
        | nil => simpa [crLines] using hrest
        | cons l ls =>
            have hl := (htail l List.mem_cons_self).1
            simpa [crLines] using hl.head_ne (crLines ls ++ rest)
      have hnext : nextLine eol (crLines (line :: lines) ++ rest) =
          .row line .cr (crLines lines ++ rest) := by
        rw [hdata, nextLine, scanLine_of_clean hclean (Or.inr rfl)]
        have hgot : eolAt 13 (crLines lines ++ rest) = .cr := by
          unfold eolAt
          rw [if_neg (by decide), if_neg hhead]
        rcases heol with rfl | rfl <;> simp [finishLine, hgot, checkEndOfCopy, hne]
      rw [readBuffer_row n hnext, ih (Or.inr rfl) (n + 1) htail]
      have hcount : n + 1 + lines.length = n + (line :: lines).length := by
        rw [List.length_cons]
        omega
      simp [hcount]

/-- A line feed after carriage returns stops the reader. -/
theorem readChunks_feed (n : ℕ) {post : List (List UInt8)} (h : post.flatten.head? = some 10) :
    readChunks (some .cr) n [] post = ([], .inconsistent (n + 1) .cr) := by
  induction post with
  | nil => cases h
  | cons chunk post ih =>
      have hempty : readBuffer (some .cr) n [] = ([], .pending (some .cr) n []) :=
        readBuffer_incomplete n rfl
      rw [readChunks, hempty, resume_pending, List.nil_append]
      rcases chunk with - | ⟨b, chunk⟩
      · exact ih (by simpa using h)
      · have hb : b = 10 := by simpa using h
        have hstop : readBuffer (some .cr) n (b :: chunk) = ([], .inconsistent (n + 1) .cr) := by
          have hscan := scanLine_of_clean Paired.nil (Or.inl rfl) chunk (b := 10)
          have hnext : nextLine (some .cr) (10 :: chunk) = .inconsistent .cr .lf := by
            rw [List.nil_append] at hscan
            rw [nextLine, hscan]
            rfl
          rw [hb, readBuffer_inconsistent n hnext]
        cases post with
        | nil => rw [readChunks, hstop]
        | cons c post => rw [readChunks, hstop]; rfl

/-- At a bad cut the pieces and the whole part. -/
theorem readChunks_ne (pre post lines : List (List UInt8)) (last : List UInt8)
    (hpre : readChunks none 0 [] pre = readBuffer none 0 pre.flatten)
    (hbad : BadCut none pre.flatten post.flatten lines last) :
    readChunks none 0 [] (pre ++ post) ≠ readBuffer none 0 (pre ++ post).flatten := by
  obtain ⟨feed, -, hclean, hlast, hdata, hmarker⟩ := hbad
  obtain ⟨more, hmore⟩ : ∃ more, post.flatten = 10 :: more := by
    cases hpost : post.flatten with
    | nil => rw [hpost] at feed; cases feed
    | cons b more =>
        rw [hpost] at feed
        exact ⟨more, by rw [Option.some.inj feed]⟩
  -- after the lines the reader is undecided, or has decided on carriage returns
  have hwhole : readBuffer none 0 (pre ++ post).flatten =
      (lines ++ (readBuffer (if lines = [] then none else some .cr) (0 + lines.length)
          (last ++ 13 :: 10 :: more)).1,
        (readBuffer (if lines = [] then none else some .cr) (0 + lines.length)
          (last ++ 13 :: 10 :: more)).2) := by
    rw [List.flatten_append, hdata, hmore, List.append_assoc, List.append_assoc]
    exact readBuffer_crLines (Or.inl rfl) 0 hclean (hlast.head_ne _)
  have hparts : readChunks none 0 [] (pre ++ post) =
      resume (lines ++ (readBuffer (if lines = [] then none else some .cr) (0 + lines.length)
          (last ++ [13])).1,
        (readBuffer (if lines = [] then none else some .cr) (0 + lines.length)
          (last ++ [13])).2)
        fun e m rest => readChunks e m rest post := by
    rw [readChunks_append, hpre, hdata,
      readBuffer_crLines (Or.inl rfl) 0 hclean (hlast.head_ne [])]
  have hscan : scanLine (last ++ [13]) = some (last, 13, []) :=
    scanLine_of_clean hlast (Or.inr rfl) []
  have hscan' : scanLine (last ++ 13 :: 10 :: more) = some (last, 13, 10 :: more) :=
    scanLine_of_clean hlast (Or.inr rfl) _
  have htaken : ∀ e : Option Eol, e = none ∨ e = some .cr → ∀ k, last ≠ eocMarker →
      readBuffer e k (last ++ [13]) = ([last], .pending (some .cr) (k + 1) []) := by
    intro e he k hne
    have hnext : nextLine e (last ++ [13]) = .row last .cr [] := by
      rw [nextLine, hscan]
      rcases he with rfl | rfl <;> simp [finishLine, eolAt, checkEndOfCopy, hne]
    rw [readBuffer_row k hnext, readBuffer_incomplete (k + 1) rfl]
  rw [hwhole, hparts]
  by_cases hlines : lines = []
  · -- the whole goes on with both bytes as the line end
    have hne := hmarker rfl hlines
    have hnext : nextLine none (last ++ 13 :: 10 :: more) = .row last .crLf more := by
      rw [nextLine, hscan']
      simp [finishLine, eolAt, checkEndOfCopy, hne]
    rw [if_pos hlines, htaken none (Or.inl rfl) _ hne, readBuffer_row _ hnext]
    intro heq
    have hstop := congrArg Prod.snd heq
    simp only [resume, readChunks_feed _ feed] at hstop
    exact absurd (expected_of_inconsistent hstop.symm) (by decide)
  · -- the whole stops here, the pieces one line later or at the marker
    have hnext : nextLine (some .cr) (last ++ 13 :: 10 :: more) = .inconsistent .cr .crLf := by
      rw [nextLine, hscan']
      simp [finishLine, eolAt]
    rw [if_neg hlines, readBuffer_inconsistent _ hnext]
    by_cases hne : last = eocMarker
    · have heoc : nextLine (some .cr) (last ++ [13]) = .endOfCopy := by
        rw [nextLine, hscan]
        simp [finishLine, eolAt, checkEndOfCopy, hne]
      rw [readBuffer_endOfCopy _ heoc]
      simp [resume]
    · rw [htaken (some .cr) (Or.inr rfl) _ hne]
      simp [resume, readChunks_feed _ feed]

/-- Input in pieces gives the rows and the end of the input in one buffer exactly when
no piece ends between the carriage return and the line feed of a line end that the
reader has not yet learned to expect. -/
theorem readChunks_eq_iff (chunks : List (List UInt8)) :
    readChunks none 0 [] chunks = readBuffer none 0 chunks.flatten ↔
      ∀ pre post, chunks = pre ++ post →
        ∀ lines last, ¬ BadCut none pre.flatten post.flatten lines last := by
  constructor
  · -- before the first bad cut nothing differs, behind it everything does
    intro heq pre post hsplit lines last hbad
    induction hlen : pre.length using Nat.strong_induction_on generalizing pre post lines last with
    | _ k ih =>
        have hpre : readChunks none 0 [] pre = readBuffer none 0 pre.flatten := by
          have hread := readChunks_eq none 0 [] pre ?_
          · rwa [List.nil_append] at hread
          rintro p₁ p₂ rfl lines' last' hbad'
          rw [List.nil_append] at hbad'
          have hne : p₂ ≠ [] := by
            rintro rfl
            cases hbad'.feed
          have hlt : p₁.length < k := by
            rw [← hlen, List.length_append]
            have := List.length_pos_of_ne_nil hne
            omega
          apply ih p₁.length hlt p₁ (p₂ ++ post) (by rw [hsplit, List.append_assoc]) lines' last' _ rfl
          refine { hbad' with feed := ?_ }
          rw [List.flatten_append, List.head?_append, hbad'.feed]
          rfl
        rw [hsplit] at heq
        exact readChunks_ne pre post lines last hpre hbad heq
  · intro h
    have hread := readChunks_eq none 0 [] chunks (by simpa using h)
    rwa [List.nil_append] at hread

/-- `"a\r\nb\r\n"` in two pieces, the first of which ends in its carriage return. -/
theorem readChunks_ne_crlf :
    readChunks none 0 [] [[97, 13], [10, 98, 13, 10]] ≠
      readBuffer none 0 [[97, 13], [10, 98, 13, 10]].flatten := by
  have hpre : readChunks none 0 [] [[97, 13]] = readBuffer none 0 [[97, 13]].flatten := by
    rw [readChunks, readBuffer_incomplete 0 rfl, resume_pending, readChunks]
    rfl
  apply readChunks_ne [[97, 13]] [[10, 98, 13, 10]] [] [97] hpre
  exact ⟨rfl, Or.inl rfl, by simp, .plain (by decide) (by decide) .nil, rfl, by decide⟩

end DeltaX.Copy
