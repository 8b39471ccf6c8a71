import MacroCalls.SourceFile

/-!
# The line index

The line starts of a text strictly increase from zero and stay within the text, so the bisection
counts the lines that start at or before an offset (`SourceFile.lt_lineAt_iff`). Every offset of a
file therefore lies on a line that has begun there, and every line ends where it starts or later,
but within the file. The position of an offset is settled by what stands before it
(`SourceFile.position_append`).
-/

namespace MacroCalls

namespace Text

theorem bounds_of_mem_afterNewlines {t : Text} {o k : Nat} (h : k ∈ afterNewlines o t) :
    o < k ∧ k ≤ o + t.length := by
  induction t generalizing o with
  | nil => simp [afterNewlines] at h
  | cons b t ih =>
    have hrest : k ∈ afterNewlines (o + 1) t → o < k ∧ k ≤ o + (b :: t).length := by
      intro hk
      have := ih hk
      rw [List.length_cons]
      omega
    rw [afterNewlines] at h
    split at h
    · rcases List.mem_cons.mp h with rfl | h
      · rw [List.length_cons]
        omega
      · exact hrest h
    · exact hrest h

theorem pairwise_lt_afterNewlines (t : Text) (o : Nat) : (afterNewlines o t).Pairwise (· < ·) := by
  induction t generalizing o with
  | nil => exact .nil
  | cons b t ih =>
    rw [afterNewlines]
    split
    · exact .cons (fun k hk => (bounds_of_mem_afterNewlines hk).1) (ih _)
    · exact ih _

theorem pairwise_lt_lineStarts (t : Text) : t.lineStarts.Pairwise (· < ·) :=
  .cons (fun _ hk => (bounds_of_mem_afterNewlines hk).1) (pairwise_lt_afterNewlines t 0)

theorem le_length_of_mem_lineStarts {t : Text} {k : Nat} (h : k ∈ t.lineStarts) :
    k ≤ t.length := by
  rcases List.mem_cons.mp h with rfl | h
  · exact Nat.zero_le _
  · have := bounds_of_mem_afterNewlines h
    omega

theorem afterNewlines_append (o : Nat) (a b : Text) :
    afterNewlines o (a ++ b) = afterNewlines o a ++ afterNewlines (o + a.length) b := by
  induction a generalizing o with
  | nil => rfl
  | cons c a ih =>
    have hlen : o + (c :: a).length = o + 1 + a.length := by
      rw [List.length_cons]
      omega
    simp only [List.cons_append, afterNewlines, ih, hlen]
    split <;> rfl

theorem lineStarts_append (a b : Text) :
    lineStarts (a ++ b) = lineStarts a ++ afterNewlines a.length b := by
  rw [lineStarts, lineStarts, afterNewlines_append, Nat.zero_add, List.cons_append]

theorem lineStarts_ne_nil (t : Text) : t.lineStarts ≠ [] := List.cons_ne_nil _ _

end Text

/-- **Bisection counts.** What lies below `lo` is not above `x` and what lies from `hi` on is; the
result separates the two kinds on the whole array. -/
theorem lt_firstAbove_iff {a : Array Nat} {x lo hi : Nat} (hhi : hi ≤ a.size)
    (hsorted : ∀ i j (_ : i < j) (hj : j < a.size), a[i] < a[j]) (hle : lo ≤ hi)
    (hbelow : ∀ i (h : i < a.size), i < lo → a[i] ≤ x)
    (habove : ∀ i (h : i < a.size), hi ≤ i → x < a[i]) :
    ∀ i (h : i < a.size), i < firstAbove a x lo hi hhi ↔ a[i] ≤ x := by
  fun_induction firstAbove a x lo hi hhi with
  | case1 lo hi hhi hlt hx ih =>
    -- the middle lies above `x`, and so does everything behind it
    refine ih hsorted (by omega) hbelow fun i h hi => ?_
    rcases Nat.eq_or_lt_of_le hi with rfl | hi
    · exact hx
    · have := hsorted _ i hi h
      omega
  | case2 lo hi hhi hlt hx ih =>
    -- the middle does not, nor does anything before it
    refine ih hsorted (by omega) (fun i h hi => ?_) habove
    rcases Nat.eq_or_lt_of_le (Nat.lt_succ_iff.mp hi) with rfl | hi
    · omega
    · have := hsorted i _ hi (by omega)
      omega
  | case3 lo hi hhi hlt =>
    intro i h
    constructor
    · exact hbelow i h
    · intro hx
      refine Nat.lt_of_not_le fun hi => ?_
      have := habove i h (by omega)
      omega

/-- The entries that satisfy `p` are counted by an index that has them before it. -/
theorem countP_eq_of_lt_iff {l : List Nat} {p : Nat → Bool} {n : Nat} (hn : n ≤ l.length)
    (h : ∀ i (hi : i < l.length), i < n ↔ p l[i] = true) : l.countP p = n := by
  have hbelow : (l.take n).countP p = n := by
    have hall : ∀ x ∈ l.take n, p x = true := by
      intro x hx
      obtain ⟨i, hi, rfl⟩ := List.mem_take_iff_getElem.mp hx
      exact (h i (by omega)).mp (by omega)
    rw [List.countP_eq_length.mpr hall, List.length_take, Nat.min_eq_left hn]
  have habove : (l.drop n).countP p = 0 := by
    refine List.countP_eq_zero.mpr fun x hx => ?_
    obtain ⟨i, hi, rfl⟩ := List.mem_drop_iff_getElem.mp hx
    exact (not_congr (h (n + i) (by omega))).mp (by omega)
  rw [← List.take_append_drop n l, List.countP_append, hbelow, habove, Nat.add_zero]

namespace SourceFile

variable (f : SourceFile)

theorem size_starts : f.starts.size = f.text.lineStarts.length := by
  rw [f.starts_eq, List.size_toArray]

theorem starts_strictMono (i j : Nat) (h : i < j) (hj : j < f.starts.size) :
    f.starts[i] < f.starts[j] := by
  have hsize := f.size_starts
  simp only [f.starts_eq, List.getElem_toArray]
  exact List.pairwise_iff_getElem.mp f.text.pairwise_lt_lineStarts i j _ (by omega) h

theorem starts_zero (h : 0 < f.starts.size) : f.starts[0] = 0 := by
  simp [f.starts_eq, Text.lineStarts]

theorem starts_le_length (i : Nat) (h : i < f.starts.size) : f.starts[i] ≤ f.text.length := by
  have hsize := f.size_starts
  simp only [f.starts_eq, List.getElem_toArray]
  exact Text.le_length_of_mem_lineStarts (List.getElem_mem _)

/-- **The line at an offset** is the last one that starts at or before it. -/
theorem lt_lineAt_iff (o i : Nat) (h : i < f.starts.size) : i < f.lineAt o ↔ f.starts[i] ≤ o :=
  lt_firstAbove_iff _ f.starts_strictMono (Nat.zero_le _)
    (fun _ _ h => absurd h (Nat.not_lt_zero _)) (fun _ h h' => absurd h (Nat.not_lt.mpr h')) i h

/-- The line at an offset is the number of lines that start at or before it. -/
theorem lineAt_eq_countP (o : Nat) : f.lineAt o = f.text.lineStarts.countP (· ≤ o) := by
  have hsize := f.size_starts
  have hle := f.lineAt_le o
  refine (countP_eq_of_lt_iff (by omega) fun i hi => ?_).symm
  rw [f.lt_lineAt_iff o i (by omega)]
  simp [f.starts_eq]

theorem lineAt_mono {o o' : Nat} (h : o ≤ o') : f.lineAt o ≤ f.lineAt o' := by
  rw [f.lineAt_eq_countP, f.lineAt_eq_countP]
  refine List.countP_mono_left fun k _ hk => ?_
  rw [decide_eq_true_eq] at hk ⊢
  omega

/-- **A later offset** is on no earlier line, also where offsets lie outside the file. -/
theorem line_position_mono {o o' : Int} (h : o ≤ o') :
    (f.position o).line ≤ (f.position o').line := by
  have hclamp : f.text.clamp o ≤ f.text.clamp o' := by
    unfold Text.clamp
    omega
  exact f.lineAt_mono hclamp

theorem lineAt_pos (o : Nat) : 0 < f.lineAt o := by
  rw [f.lt_lineAt_iff o 0 f.size_starts_pos, f.starts_zero]
  exact Nat.zero_le _

/-- The line at an offset has started there. -/
theorem starts_lineAt_le (o : Nat) (h : f.lineAt o - 1 < f.starts.size) :
    f.starts[f.lineAt o - 1] ≤ o := by
  have := f.lineAt_pos o
  exact (f.lt_lineAt_iff o _ h).mp (by omega)

/-- A line ends where it starts or later, and within the file. -/
theorem bounds_of_lineBounds? {n lo hi : Nat} (h : f.lineBounds? n = some (lo, hi)) :
    lo ≤ hi ∧ hi ≤ f.text.length := by
  rw [lineBounds?] at h
  split at h
  · rename_i hn
    cases h
    split
    · rename_i hlt
      have := f.starts_strictMono (n - 1) n (by omega) hlt
      have := f.starts_le_length n hlt
      omega
    · exact ⟨f.starts_le_length _ _, Nat.le_refl _⟩
  · cases h

theorem lineEnd_le (n : Nat) : f.lineEnd n ≤ f.text.length := by
  rw [lineEnd]
  split
  · rename_i h
    exact (f.bounds_of_lineBounds? h).2
  · exact Nat.le_refl _

/-! ### A part at the front of a file -/

variable (name a b : Text)

/-- Where a part at the front of a file ends, the lines of the part have started and no others. -/
theorem lineAt_length : (ofText name (a ++ b)).lineAt a.length = a.lineStarts.length := by
  have hstarted : ∀ k ∈ a.lineStarts, decide (k ≤ a.length) = true :=
    fun k hk => decide_eq_true (Text.le_length_of_mem_lineStarts hk)
  have hlater : ∀ k ∈ Text.afterNewlines a.length b, ¬ decide (k ≤ a.length) = true := by
    intro k hk
    have := (Text.bounds_of_mem_afterNewlines hk).1
    rw [decide_eq_true_eq]
    omega
  have htext : (ofText name (a ++ b)).text = a ++ b := rfl
  rw [lineAt_eq_countP, htext, Text.lineStarts_append, List.countP_append,
    List.countP_eq_length.mpr hstarted, List.countP_eq_zero.mpr hlater, Nat.add_zero]

/-- The last line of a part at the front of a file starts where it does in the part itself. -/
theorem starts_append (i : Nat) (hi : i < a.lineStarts.length)
    (h : i < (ofText name (a ++ b)).starts.size) :
    (ofText name (a ++ b)).starts[i] = a.lineStarts[i] := by
  simp only [ofText, List.getElem_toArray, Text.lineStarts_append]
  exact List.getElem_append_left hi

/-- **The position of an offset** depends only on what stands before it: the line is the last one
that starts there, and the column counts the glyphs since. -/
theorem position_append :
    (ofText name (a ++ b)).position a.length =
      ⟨a.lineStarts.length,
        Text.glyphCount (a.drop (a.lineStarts.getLast a.lineStarts_ne_nil)) + 1⟩ := by
  have hline := lineAt_length name a b
  have hclamp : (ofText name (a ++ b)).text.clamp (a.length : Int) = a.length := by
    simp [ofText, Text.clamp]
  have hlast : a.lineStarts.length - 1 < a.lineStarts.length := by
    simp [Text.lineStarts]
  have hslice : ∀ lo, (ofText name (a ++ b)).text.slice lo a.length = a.drop lo :=
    fun lo => congrArg (List.drop lo) List.take_left
  unfold position
  simp only [hclamp, hline, starts_append name a b _ hlast, hslice, List.getLast_eq_getElem]

end SourceFile

end MacroCalls
