import MacroCalls.Proofs.Classification
import MacroCalls.Proofs.Columns

/-!
# Lines partition a file

The index of a file has the starts of its lines, and where a line ends is computed from the start of
the next one. A line feed stands right before each start but the first, and nowhere else
(`Text.mem_lineStarts_iff`), so the lines from start to end are free of line feeds, and with a line
feed between any two of them they make up the whole text. Each offset is on one line only, the one
that bisection of the index finds.

Main statement: `lines_partition`.
-/

namespace MacroCalls

open Text

/-! ### Line starts -/

theorem Text.mem_afterNewlines_iff {t : Text} {o k : Nat} :
    k ∈ afterNewlines o t ↔ ∃ i, k = o + i + 1 ∧ t[i]? = some newline := by
  constructor
  · intro h
    obtain ⟨hlt, -⟩ := bounds_of_mem_afterNewlines h
    refine ⟨k - 1 - o, by omega, ?_⟩
    rw [← List.head?_drop]
    exact head?_of_mem_afterNewlines h
  · rintro ⟨i, rfl, hi⟩
    induction t generalizing o i with
    | nil => simp at hi
    | cons b t ih =>
      rw [afterNewlines]
      cases i with
      | zero =>
        obtain rfl : b = newline := by simpa using hi
        simp
      | succ i =>
        have hmem := ih (o := o + 1) i (by simpa using hi)
        rw [(by omega : o + 1 + i + 1 = o + (i + 1) + 1)] at hmem
        split
        · exact List.mem_cons_of_mem _ hmem
        · exact hmem

/-- **Lines start** at the front of a text and right behind its line feeds. -/
theorem Text.mem_lineStarts_iff {t : Text} {k : Nat} :
    k ∈ t.lineStarts ↔ k = 0 ∨ ∃ i, k = i + 1 ∧ t[i]? = some newline := by
  simp [lineStarts, mem_afterNewlines_iff]

namespace SourceFile

variable (f : SourceFile) {n m : Nat}

theorem lineCount_eq : f.lineCount = 1 + f.text.count newline := by
  rw [lineCount, size_starts, lineStarts, List.length_cons, length_afterNewlines, Nat.add_comm]

/-! ### Starts and ends of lines -/

/-- There is a line of that number. -/
def HasLine (f : SourceFile) (n : Nat) : Prop := 1 ≤ n ∧ n ≤ f.lineCount

theorem lineStart_eq (h : n < f.starts.size) : f.lineStart (n + 1) = f.starts[n] := by
  rw [lineStart, lineBounds?, dif_pos ⟨by omega, by omega⟩]
  rfl

theorem lineEnd_eq (hn : 1 ≤ n) (h : n < f.starts.size) : f.lineEnd n = f.starts[n] - 1 := by
  rw [lineEnd, lineBounds?, dif_pos ⟨hn, by omega⟩]
  simp [h]

theorem lineStart_one : f.lineStart 1 = 0 := by
  have hpos := f.size_starts_pos
  rw [lineStart_eq f hpos, starts_zero]

/-- The last line ends with the file. -/
theorem lineEnd_lineCount : f.lineEnd f.lineCount = f.text.length := by
  have hpos := f.size_starts_pos
  rw [lineEnd, lineCount, lineBounds?, dif_pos ⟨hpos, Nat.le_refl _⟩]
  simp

/-- A line starts right behind the line feed that ends the line before it. -/
theorem lineStart_succ (hn : 1 ≤ n) (h : n < f.lineCount) :
    f.lineStart (n + 1) = f.lineEnd n + 1 := by
  have hpos := f.starts_strictMono 0 n (by omega) h
  rw [lineStart_eq f h, lineEnd_eq f hn h]
  omega

theorem lineStart_mem (h : f.HasLine n) : f.lineStart n ∈ f.text.lineStarts := by
  obtain ⟨k, rfl⟩ : ∃ k, n = k + 1 := ⟨n - 1, by have := h.1; omega⟩
  have hlt : k < f.starts.size := h.2
  rw [lineStart_eq f hlt]
  simp only [f.starts_eq, List.getElem_toArray, List.getElem_mem]

theorem exists_lineStart {k : Nat} (h : k ∈ f.text.lineStarts) :
    ∃ n, f.HasLine n ∧ f.lineStart n = k := by
  obtain ⟨i, hi, rfl⟩ := List.getElem_of_mem h
  have hsize := f.size_starts
  have hlt : i < f.starts.size := by omega
  refine ⟨i + 1, ⟨by omega, hlt⟩, ?_⟩
  rw [lineStart_eq f hlt]
  simp only [f.starts_eq, List.getElem_toArray]

theorem lineStart_le_lineEnd (h : f.HasLine n) : f.lineStart n ≤ f.lineEnd n := by
  have hin : 1 ≤ n ∧ n ≤ f.starts.size := h
  have hbounds : f.lineBounds? n = some (f.lineStart n, f.lineEnd n) := by
    simp only [lineStart, lineEnd, lineBounds?]
    rw [dif_pos hin]
  exact (f.bounds_of_lineBounds? hbounds).1

/-- A line ends before any later line starts. -/
theorem lineEnd_lt_lineStart (hn : 1 ≤ n) (hm : m ≤ f.lineCount) (hlt : n < m) :
    f.lineEnd n < f.lineStart m := by
  -- induction on the later line: each line ends where it starts or later
  induction m, hlt using Nat.le_induction with
  | base =>
    rw [f.lineStart_succ hn (by omega)]
    exact Nat.lt_succ_self _
  | succ m hnm ih =>
    have hle := f.lineStart_le_lineEnd (n := m) ⟨by omega, by omega⟩
    have hstart := f.lineStart_succ (n := m) (by omega) (by omega)
    have := ih (by omega)
    omega

theorem getElem?_lineEnd (hn : 1 ≤ n) (h : n < f.lineCount) :
    f.text[f.lineEnd n]? = some newline := by
  have hstart := f.lineStart_succ hn h
  have hmem := f.lineStart_mem (n := n + 1) ⟨by omega, h⟩
  rcases mem_lineStarts_iff.mp hmem with hzero | ⟨i, hi, hbyte⟩
  · omega
  · rwa [(by omega : f.lineEnd n = i)]

/-! ### The text of the lines -/

/-- **No line feed** stands on a line. -/
theorem newline_not_mem_rawLine (h : f.HasLine n) : newline ∉ f.rawLine n := by
  intro hmem
  obtain ⟨i, hi, hbyte⟩ := List.getElem_of_mem hmem
  have hlength := f.length_rawLine n
  have hat : f.text[f.lineStart n + i]? = some newline := by
    have hget := List.getElem?_eq_some_iff.mpr ⟨hi, hbyte⟩
    rw [rawLine, slice, List.getElem?_drop, List.getElem?_take] at hget
    split at hget
    · exact hget
    · cases hget
  -- another line would start behind the line feed, in the middle of this one
  obtain ⟨m, hm, hstart⟩ := f.exists_lineStart (mem_lineStarts_iff.mpr (.inr ⟨_, rfl, hat⟩))
  rcases Nat.lt_trichotomy n m with hlt | rfl | hlt
  · have := f.lineEnd_lt_lineStart h.1 hm.2 hlt
    omega
  · omega
  · have := f.lineEnd_lt_lineStart hm.1 h.2 hlt
    have := f.lineStart_le_lineEnd hm
    omega

theorem drop_lineStart (hn : 1 ≤ n) (h : n < f.lineCount) :
    f.text.drop (f.lineStart n) = f.rawLine n ++ newline :: f.text.drop (f.lineStart (n + 1)) := by
  obtain ⟨hlt, hbyte⟩ := List.getElem?_eq_some_iff.mp (f.getElem?_lineEnd hn h)
  have hle := f.lineStart_le_lineEnd (n := n) ⟨hn, by omega⟩
  rw [← slice_append_drop hle, List.drop_eq_getElem_cons hlt, hbyte, f.lineStart_succ hn h, rawLine]

/-- **Lines join** to what stands in the file from the first of them on. -/
theorem intercalate_rawLine (k : Nat) (hn : 1 ≤ n) (hk : n + k = f.lineCount) :
    [newline].intercalate ((List.range' n (k + 1)).map f.rawLine) =
      f.text.drop (f.lineStart n) := by
  induction k generalizing n with
  | zero =>
    obtain rfl : n = f.lineCount := by omega
    rw [List.range'_one, List.map_singleton, List.intercalate_singleton, rawLine,
      f.lineEnd_lineCount, slice, List.take_length]
  | succ k ih =>
    have hrest := ih (n := n + 1) (by omega) (by omega)
    rw [List.range'_succ, List.map_cons, List.intercalate_cons_of_ne_nil (by simp), hrest,
      f.drop_lineStart hn (by omega), List.append_assoc, List.singleton_append]

/-! ### Offsets on lines -/

theorem hasLine_position (o : Int) : f.HasLine (f.position o).line :=
  ⟨f.lineAt_pos _, f.lineAt_le _⟩

/-- **An offset is on one line**, the line of its position. -/
theorem on_line_iff {o : Nat} (ho : o ≤ f.text.length) :
    f.HasLine n ∧ f.lineStart n ≤ o ∧ o ≤ f.lineEnd n ↔ n = (f.position o).line := by
  obtain ⟨hstart, hend, -⟩ := f.bounds_of_position ho
  have hline := f.hasLine_position o
  constructor
  · rintro ⟨hn, hlo, hhi⟩
    rcases Nat.lt_trichotomy n (f.position o).line with hlt | heq | hlt
    · have := f.lineEnd_lt_lineStart hn.1 hline.2 hlt
      omega
    · exact heq
    · have := f.lineEnd_lt_lineStart hline.1 hn.2 hlt
      omega
  · rintro rfl
    exact ⟨hline, hstart, hend⟩

/-- The lines of a file, from where each starts to where it ends, partition the file. -/
structure LinesPartition (f : SourceFile) : Prop where
  /-- There is one line more than there are line feeds. -/
  lineCount_eq : f.lineCount = 1 + f.text.count newline
  bounds : ∀ n, f.HasLine n → f.lineStart n ≤ f.lineEnd n ∧ f.lineEnd n ≤ f.text.length
  newline_not_mem : ∀ n, f.HasLine n → newline ∉ f.text.slice (f.lineStart n) (f.lineEnd n)
  /-- With a line feed between any two of them, the lines are the text. -/
  joined : [newline].intercalate ((List.range' 1 f.lineCount).map fun n =>
    f.text.slice (f.lineStart n) (f.lineEnd n)) = f.text
  /-- A line is given without the carriage return at its end, if there is one. -/
  line_cases : ∀ n, f.HasLine n →
    f.text.slice (f.lineStart n) (f.lineEnd n) = f.line n ++ [carriageReturn] ∨
      f.text.slice (f.lineStart n) (f.lineEnd n) = f.line n ∧
        (f.line n).getLast? ≠ some carriageReturn
  /-- Each offset is on the line of its position and on no other. -/
  on_line_iff : ∀ o n : Nat, o ≤ f.text.length →
    (f.HasLine n ∧ f.lineStart n ≤ o ∧ o ≤ f.lineEnd n ↔ n = (f.position o).line)

end SourceFile

theorem Text.dropCarriageReturn_cases (t : Text) :
    t = t.dropCarriageReturn ++ [carriageReturn] ∨
      t = t.dropCarriageReturn ∧ t.dropCarriageReturn.getLast? ≠ some carriageReturn := by
  unfold dropCarriageReturn
  split
  · rename_i h
    obtain ⟨s, rfl⟩ := List.getLast?_eq_some_iff.mp h
    left
    rw [List.dropLast_concat]
  · rename_i h
    exact .inr ⟨rfl, h⟩

/-- **Lines partition the source.** -/
theorem lines_partition (f : SourceFile) : f.LinesPartition where
  lineCount_eq := f.lineCount_eq
  bounds n hn := ⟨f.lineStart_le_lineEnd hn, f.lineEnd_le n⟩
  newline_not_mem n hn := f.newline_not_mem_rawLine hn
  joined := by
    have hcount := f.lineCount_eq
    have hjoin := f.intercalate_rawLine (n := 1) (f.lineCount - 1) (Nat.le_refl _) (by omega)
    rw [f.lineStart_one, List.drop_zero, Nat.sub_add_cancel (by omega)] at hjoin
    exact hjoin
  line_cases n hn := by
    rw [f.line_eq_dropCarriageReturn]
    exact (f.rawLine n).dropCarriageReturn_cases
  on_line_iff o n ho := f.on_line_iff ho

/-- A carriage return belongs to the end of a line only as its last byte, and only once. -/
example :
    let f := SourceFile.ofText [] (ascii "a\r\n\nb\rc\r\r")
    (List.range' 1 f.lineCount).map f.line = [ascii "a", [], ascii "b\rc\r"] := by
  decide +kernel

end MacroCalls
