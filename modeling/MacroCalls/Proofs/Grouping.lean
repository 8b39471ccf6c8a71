import Mathlib.Data.List.Sort
import MacroCalls.Report.Excerpt

/-!
# Labels by lines

Labels are put together by lines one after the other. What holds of the labels so far
(`Excerpt.Grouping.Holds`) holds again with one more label, so in the end the labels of a line are
those of the diagnostic that start on it, in their order (`Excerpt.labels_grouping`), and each line
is met once (`Excerpt.mem_lines_iff`, `Excerpt.pairwise_lt_lines`).
-/

namespace MacroCalls

namespace Excerpt

/-! ### The loop over the labels -/

namespace Grouping

/-- The grouping is that of some labels, each on the line that its key gives. -/
structure Holds (key : Label → Nat) (labels : List Label) (g : Grouping) : Prop where
  labels_eq : ∀ n, g.labels n = labels.filter fun l => key l = n
  isSome_iff : ∀ n, (g.byLine.lookup n).isSome = true ↔ n ∈ g.met
  mem_met_iff : ∀ n, n ∈ g.met ↔ ∃ l ∈ labels, key l = n
  nodup : g.met.Nodup

variable {key : Label → Nat} {labels : List Label} {g : Grouping}

theorem holds_nil : Holds key [] {} where
  labels_eq _ := rfl
  isSome_iff n := by simp
  mem_met_iff n := by simp
  nodup := List.nodup_nil

theorem lookup_add (g : Grouping) (m n : Nat) (l : Label) :
    (g.add m l).byLine.lookup n =
      if n = m then some (g.labels m ++ [l]) else g.byLine.lookup n := by
  rw [add, List.lookup_cons]
  by_cases h : n = m
  · simp [h, labels]
  · simp [h, beq_false_of_ne h]

theorem Holds.met_add (h : Holds key labels g) (m : Nat) (l : Label) :
    (g.add m l).met = if m ∈ g.met then g.met else g.met ++ [m] := by
  have hiff : (g.byLine.lookup m).isNone = true ↔ ¬ m ∈ g.met := by
    rw [← h.isSome_iff, Bool.not_eq_true, Option.isNone_iff_eq_none, Option.isSome_eq_false_iff,
      Option.isNone_iff_eq_none]
  by_cases hm : m ∈ g.met
  · rw [add, if_neg (by rw [hiff]; simpa using hm), if_pos hm]
  · rw [add, if_pos (hiff.mpr hm), if_neg hm]

/-- **One more label** goes to the end of its line. -/
theorem Holds.add (h : Holds key labels g) (l : Label) :
    Holds key (labels ++ [l]) (g.add (key l) l) := by
  have hmem : ∀ n, n ∈ (g.add (key l) l).met ↔ n ∈ g.met ∨ n = key l := by
    intro n
    rw [h.met_add]
    split_ifs with hm
    · exact ⟨.inl, fun hn => hn.elim id fun hn => hn ▸ hm⟩
    · simp
  refine ⟨fun n => ?_, fun n => ?_, fun n => ?_, ?_⟩
  · rw [Grouping.labels, lookup_add, List.filter_append, ← h.labels_eq, List.filter_singleton]
    by_cases hn : n = key l
    · simp [hn]
    · simp [hn, Ne.symm hn, Grouping.labels]
  · rw [hmem, ← h.isSome_iff, lookup_add]
    by_cases hn : n = key l <;> simp [hn]
  · rw [hmem, h.mem_met_iff]
    simp only [List.mem_append, List.mem_singleton]
    constructor
    · rintro (⟨l', hl', rfl⟩ | rfl)
      · exact ⟨l', .inl hl', rfl⟩
      · exact ⟨l, .inr rfl, rfl⟩
    · rintro ⟨l', hl' | rfl, rfl⟩
      · exact .inl ⟨l', hl', rfl⟩
      · exact .inr rfl
  · rw [h.met_add]
    split_ifs with hm
    · exact h.nodup
    · exact List.nodup_append.mpr ⟨h.nodup, List.nodup_singleton _, by
        rintro a ha b hb rfl
        exact hm (List.mem_singleton.mp hb ▸ ha)⟩

/-- **The whole loop** adds the labels to those that are there. -/
theorem Holds.foldl (h : Holds key labels g) (more : List Label) :
    Holds key (labels ++ more) (more.foldl (fun g l => g.add (key l) l) g) := by
  induction more generalizing labels g with
  | nil => rwa [List.append_nil]
  | cons l more ih =>
    have hmore := ih (h.add l)
    rwa [List.append_assoc] at hmore

theorem Holds.met_eq_nil_iff (h : Holds key labels g) : g.met = [] ↔ labels = [] := by
  simp only [List.eq_nil_iff_forall_not_mem, h.mem_met_iff, not_exists, not_and]
  exact ⟨fun hnone l hl => hnone (key l) l hl rfl, fun hnone n l hl _ => hnone l hl⟩

/-- The lines to show come in increasing order, each of them once. -/
theorem Holds.pairwise_lt_lines (h : Holds key labels g) (other : Nat) :
    (g.lines other).Pairwise (· < ·) := by
  have hnodup : (g.lines other).Nodup := by
    rw [Grouping.lines, (List.mergeSort_perm ..).nodup_iff]
    split_ifs
    · exact List.nodup_singleton other
    · exact h.nodup
  have hle : (g.lines other).Pairwise (· ≤ ·) := List.pairwise_mergeSort' (· ≤ ·) _
  exact (hle.and hnodup).imp fun hab => lt_of_le_of_ne hab.1 hab.2

end Grouping

section Lines

variable (f : SourceFile) (d : Diagnostic)

theorem holds_grouping (labels : List Label) :
    Grouping.Holds (fun l => lineOf f l.span) labels (grouping f labels) :=
  Grouping.holds_nil.foldl labels

/-- **The labels of a line** are those that start on it, as they come. -/
theorem labels_grouping (labels : List Label) (n : Nat) :
    (grouping f labels).labels n = labels.filter fun l => lineOf f l.span = n :=
  (holds_grouping f labels).labels_eq n

theorem mem_sorted_labels_iff {f : SourceFile} {labels : List Label} {n : Nat} {l : Label} :
    l ∈ sorted ((grouping f labels).labels n) ↔ l ∈ labels ∧ lineOf f l.span = n := by
  rw [sorted, List.mem_mergeSort, labels_grouping, List.mem_filter, decide_eq_true_eq]

theorem mem_lines_iff {f : SourceFile} {d : Diagnostic} {n : Nat} :
    n ∈ lines f d ↔
      d.labels = [] ∧ n = lineOf f d.span ∨ ∃ l ∈ d.labels, lineOf f l.span = n := by
  have hholds := holds_grouping f d.labels
  rw [lines, Grouping.lines, List.mem_mergeSort]
  split_ifs with hempty
  · rw [List.isEmpty_iff, hholds.met_eq_nil_iff] at hempty
    simp [hempty]
  · rw [List.isEmpty_iff, hholds.met_eq_nil_iff] at hempty
    simp [hempty, hholds.mem_met_iff]

theorem mem_lines_of_label {f : SourceFile} {d : Diagnostic} {l : Label} (hl : l ∈ d.labels) :
    lineOf f l.span ∈ lines f d :=
  mem_lines_iff.mpr (.inr ⟨l, hl, rfl⟩)

theorem pairwise_lt_lines : (lines f d).Pairwise (· < ·) :=
  (holds_grouping f d.labels).pairwise_lt_lines _

theorem lines_ne_nil : lines f d ≠ [] := by
  cases hlabels : d.labels with
  | nil => exact List.ne_nil_of_mem (mem_lines_iff.mpr (.inl ⟨hlabels, rfl⟩))
  | cons l rest =>
    exact List.ne_nil_of_mem (mem_lines_of_label (hlabels ▸ List.mem_cons_self))

end Lines

end Excerpt

end MacroCalls
