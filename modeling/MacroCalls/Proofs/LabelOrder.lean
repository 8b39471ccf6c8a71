import Mathlib.Data.List.Forall2
import MacroCalls.Outcome
import MacroCalls.Proofs.Guarded.Report

/-!
# The order of labels in a report

A report shows its lines in increasing order, and below each line the labels that start on it,
stably sorted by themselves. Line by line they are the labels of the diagnostic, stably sorted all
together. For stable sorting has only one result (`StablySorted.eq`), so what stands below a line is
the part of all sorted labels that start there (`Excerpt.sorted_filter`). And a label that starts
earlier starts on no later line, also where starts lie outside the file, so going from line to line
never goes back among the sorted labels (`flatMap_filter_of_pairwise`).

Main statement: `labels_shown_in_order`.
-/

namespace MacroCalls

open Text

/-! ### Stable sorting -/

/-- The labels in another order: by their starts, and as before among those of one start. -/
structure StablySorted (labels out : List Label) : Prop where
  perm : out.Perm labels
  order : out.Pairwise fun a b => a.span.start ≤ b.span.start
  stable : ∀ x, out.filter (·.span.start = x) = labels.filter (·.span.start = x)

theorem Excerpt.stablySorted_sorted (labels : List Label) :
    StablySorted labels (sorted labels) := by
  have htrans : ∀ a b c : Label, decide (a.span.start ≤ b.span.start) = true →
      decide (b.span.start ≤ c.span.start) = true →
      decide (a.span.start ≤ c.span.start) = true := by
    intro a b c
    simp only [decide_eq_true_eq]
    omega
  have htotal : ∀ a b : Label,
      (decide (a.span.start ≤ b.span.start) || decide (b.span.start ≤ a.span.start)) = true := by
    intro a b
    simp only [Bool.or_eq_true, decide_eq_true_eq]
    omega
  have hperm : (sorted labels).Perm labels := List.mergeSort_perm ..
  refine ⟨hperm, ?_, fun x => ?_⟩
  · exact (List.pairwise_mergeSort htrans htotal labels).imp of_decide_eq_true
  · -- the labels of one start are in order as they are, so sorting keeps them as a sublist
    have hequal : ∀ l ∈ labels.filter (·.span.start = x), l.span.start = x :=
      fun l hl => of_decide_eq_true (List.mem_filter.mp hl).2
    have horder : (labels.filter (·.span.start = x)).Pairwise
        fun a b => decide (a.span.start ≤ b.span.start) = true := by
      refine List.pairwise_of_forall_mem_list fun a ha b hb => ?_
      rw [hequal a ha, hequal b hb]
      simp
    have hsub := (List.sublist_mergeSort htrans htotal horder List.filter_sublist).filter
      (·.span.start = x)
    rw [List.filter_filter] at hsub
    simp only [Bool.and_self] at hsub
    exact (hsub.eq_of_length (hperm.filter _).length_eq.symm).symm

theorem StablySorted.filter {labels out : List Label} (h : StablySorted labels out)
    (p : Label → Bool) : StablySorted (labels.filter p) (out.filter p) := by
  refine ⟨h.perm.filter p, h.order.filter p, fun x => ?_⟩
  rw [List.filter_comm, h.stable, List.filter_comm]

theorem mem_iff_of_filter_start {a b : List Label}
    (h : ∀ x, a.filter (·.span.start = x) = b.filter (·.span.start = x)) (l : Label) :
    l ∈ a ↔ l ∈ b := by
  simpa using congrArg (l ∈ ·) (h l.span.start)

/-- Lists in the order of their starts are equal if they agree on the labels of each start. -/
theorem eq_of_filter_start {a b : List Label}
    (ha : a.Pairwise fun x y => x.span.start ≤ y.span.start)
    (hb : b.Pairwise fun x y => x.span.start ≤ y.span.start)
    (h : ∀ x, a.filter (·.span.start = x) = b.filter (·.span.start = x)) : a = b := by
  have hmem := mem_iff_of_filter_start h
  induction a generalizing b with
  | nil =>
    refine (List.eq_nil_iff_forall_not_mem.mpr fun l hl => ?_).symm
    exact List.not_mem_nil ((hmem l).mpr hl)
  | cons l a ih =>
    cases b with
    | nil => exact absurd ((hmem l).mp List.mem_cons_self) List.not_mem_nil
    | cons m b =>
      obtain ⟨hla, ha'⟩ := List.pairwise_cons.mp ha
      obtain ⟨hmb, hb'⟩ := List.pairwise_cons.mp hb
      -- each head is also in the other list, so the heads have the same start
      have hstart : m.span.start = l.span.start := by
        rcases List.mem_cons.mp ((hmem l).mp List.mem_cons_self) with hl | hl
        · rw [hl]
        · rcases List.mem_cons.mp ((hmem m).mpr List.mem_cons_self) with hm | hm
          · rw [hm]
          · exact le_antisymm (hmb l hl) (hla m hm)
      have hhead := h l.span.start
      simp only [List.filter_cons, hstart, decide_true, if_true] at hhead
      obtain ⟨rfl, -⟩ := List.cons.inj hhead
      have htail : ∀ x, a.filter (·.span.start = x) = b.filter (·.span.start = x) := by
        intro x
        have hx := h x
        simp only [List.filter_cons] at hx
        split_ifs at hx
        · exact (List.cons.inj hx).2
        · exact hx
      rw [ih ha' hb' htail (mem_iff_of_filter_start htail)]

/-- **Stable sorting has one result.** -/
theorem StablySorted.eq {labels out out' : List Label} (h : StablySorted labels out)
    (h' : StablySorted labels out') : out = out' :=
  eq_of_filter_start h.order h'.order fun x => (h.stable x).trans (h'.stable x).symm

/-- Sorting some of the labels gives those of the sorted labels. -/
theorem Excerpt.sorted_filter (labels : List Label) (p : Label → Bool) :
    sorted (labels.filter p) = (sorted labels).filter p :=
  (stablySorted_sorted _).eq ((stablySorted_sorted labels).filter p)

/-! ### Line by line -/

/-- Where `p` never holds again, once it does not, the entries that satisfy it come first. -/
theorem filter_append_filter_not {α : Type} {p : α → Bool} {l : List α}
    (h : l.Pairwise fun a b => p b = true → p a = true) :
    l.filter p ++ l.filter (fun a => !p a) = l := by
  induction l with
  | nil => rfl
  | cons a l ih =>
    obtain ⟨ha, hl⟩ := List.pairwise_cons.mp h
    by_cases hp : p a = true
    · rw [List.filter_cons_of_pos hp, List.filter_cons_of_neg (by simp [hp]), List.cons_append,
        ih hl]
    · have hnone : l.filter p = [] := List.filter_eq_nil_iff.mpr fun b hb hpb => hp (ha b hb hpb)
      have hall : l.filter (fun a => !p a) = l :=
        List.filter_eq_self.mpr fun b hb => by simpa using fun hpb => hp (ha b hb hpb)
      rw [List.filter_cons_of_neg hp, hnone, List.filter_cons_of_pos (by simpa using hp), hall,
        List.nil_append]

/-- **Entries that come in the order of their keys** are listed key by key. -/
theorem flatMap_filter_of_pairwise {α : Type} {key : α → Nat} {ns : List Nat} {l : List α}
    (hns : ns.Pairwise (· < ·)) (hl : l.Pairwise fun a b => key a ≤ key b)
    (hmem : ∀ a ∈ l, key a ∈ ns) : (ns.flatMap fun n => l.filter fun a => key a = n) = l := by
  induction ns generalizing l with
  | nil =>
    have hnil : l = [] := List.eq_nil_iff_forall_not_mem.mpr fun a ha => by simpa using hmem a ha
    rw [hnil, List.flatMap_nil]
  | cons n ns ih =>
    obtain ⟨hlt, hns⟩ := List.pairwise_cons.mp hns
    have hle : ∀ a ∈ l, n ≤ key a := by
      intro a ha
      rcases List.mem_cons.mp (hmem a ha) with h | h
      · omega
      · have := hlt _ h
        omega
    -- the entries of the least key come first, and the others are listed by the other keys
    have hsplit : l.filter (fun a => key a = n) ++ l.filter (fun a => !decide (key a = n)) = l := by
      refine filter_append_filter_not (hl.imp_of_mem fun ha hb hab h => ?_)
      rw [decide_eq_true_eq] at h ⊢
      have := hle _ ha
      omega
    have hrest := ih (l := l.filter fun a => !decide (key a = n)) hns (hl.filter _) fun a ha => by
      obtain ⟨ha, hne⟩ := List.mem_filter.mp ha
      have hne : key a ≠ n := by simpa using hne
      exact (List.mem_cons.mp (hmem a ha)).resolve_left hne
    have hsame : ∀ m ∈ ns, ((l.filter fun a => !decide (key a = n)).filter fun a => key a = m) =
        l.filter fun a => key a = m := by
      intro m hm
      have := hlt m hm
      rw [List.filter_filter]
      refine List.filter_congr fun a _ => ?_
      by_cases h : key a = m
      · have hne : key a ≠ n := by omega
        simp [h, h ▸ hne]
      · simp [h]
    rw [List.flatMap_congr hsame] at hrest
    rw [List.flatMap_cons, hrest, hsplit]

/-! ### Outcomes -/

theorem forall₂_of_mapM_ok {ε α β : Type} {g : α → Except ε β} {l : List α} {bs : List β}
    (h : l.mapM g = .ok bs) : List.Forall₂ (fun a b => g a = .ok b) l bs := by
  induction l generalizing bs with
  | nil =>
    cases h
    exact .nil
  | cons a l ih =>
    obtain ⟨b, rest, hb, hrest, rfl⟩ := exists_ok_of_mapM_cons h
    exact .cons hb (ih hrest)

namespace Excerpt

/-- **A span that starts earlier** starts on no later line. -/
theorem lineOf_mono (f : SourceFile) {s t : Span} (h : s.start ≤ t.start) :
    lineOf f s ≤ lineOf f t :=
  f.line_position_mono h

/-! ### Groups -/

/-- A line of an excerpt: its number, and the labels below it with their markers. -/
structure Group where
  number : Nat
  marked : List (Label × Marker)

namespace Group

/-- The labels of the line. -/
def labels (g : Group) : List Label := g.marked.map Prod.fst

/-- The line and its markers. -/
def rows (f : SourceFile) (g : Group) : List Row :=
  .source g.number (f.line g.number) :: (g.marked.map Prod.snd).map .marker

end Group

/-- **The lines of an excerpt and the labels below them**, as they should be. -/
structure Arranged (f : SourceFile) (d : Diagnostic) (groups : List Group) : Prop where
  numbers_lt : (groups.map Group.number).Pairwise (· < ·)
  mem_numbers : ∀ n, n ∈ groups.map Group.number ↔
    d.labels = [] ∧ n = lineOf f d.span ∨ ∃ l ∈ d.labels, lineOf f l.span = n
  /-- Each marker is that of its label, below the line on which the label starts. -/
  marked : ∀ g ∈ groups, ∀ m ∈ g.marked,
    lineOf f m.1.span = g.number ∧ marker f d g.number m.1 = .ok m.2
  labels_sorted : StablySorted d.labels (groups.flatMap Group.labels)
  /-- Below each line stand its own labels, sorted by themselves. -/
  line_sorted : ∀ g ∈ groups,
    StablySorted (d.labels.filter fun l => lineOf f l.span = g.number) g.labels

section Rows

variable {f : SourceFile} {d : Diagnostic}

/-- The rows of a line are those of a group. -/
theorem exists_group {n : Nat} {labels : List Label} {rows : List Row}
    (h : lineRows f d n labels = .ok rows) :
    ∃ g : Group, g.number = n ∧ g.rows f = rows ∧ g.labels = sorted labels ∧
      ∀ m ∈ g.marked, marker f d n m.1 = .ok m.2 := by
  obtain ⟨ms, hms, rfl⟩ := exists_ok_of_map h
  obtain ⟨hlen, hmarked⟩ := List.forall₂_iff_zip.mp (forall₂_of_mapM_ok hms)
  refine ⟨⟨n, (sorted labels).zip ms⟩, rfl, ?_, ?_, ?_⟩
  · rw [Group.rows, List.map_snd_zip hlen.ge]
  · rw [Group.labels, List.map_fst_zip hlen.le]
  · exact fun m hm => hmarked hm

/-- The rows of some lines are those of groups, one for each line. -/
theorem exists_groups {labels : Nat → List Label} {ns : List Nat} {rowss : List (List Row)}
    (h : List.Forall₂ (fun n rows => lineRows f d n (labels n) = .ok rows) ns rowss) :
    ∃ groups : List Group, groups.map Group.number = ns ∧
      groups.flatMap (Group.rows f) = rowss.flatten ∧
      ∀ g ∈ groups, g.labels = sorted (labels g.number) ∧
        ∀ m ∈ g.marked, marker f d g.number m.1 = .ok m.2 := by
  induction h with
  | nil => exact ⟨[], rfl, rfl, List.forall_mem_nil _⟩
  | cons hrows _ ih =>
    obtain ⟨g, rfl, hg, hlabels, hmarked⟩ := exists_group hrows
    obtain ⟨groups, hnumbers, hflat, hgroups⟩ := ih
    refine ⟨g :: groups, ?_, ?_, List.forall_mem_cons.mpr ⟨⟨hlabels, hmarked⟩, hgroups⟩⟩
    · rw [List.map_cons, hnumbers]
    · rw [List.flatMap_cons, hg, hflat, List.flatten_cons]

/-- **The rows of an excerpt** are those of groups that are arranged as they should be. -/
theorem exists_arranged {rows : List Row} (h : Excerpt.rows f d = .ok rows) :
    ∃ groups, Arranged f d groups ∧
      rows = .location (if f.name.isEmpty then ascii "<input>" else f.name)
        (f.position d.span.start) :: .divider :: groups.flatMap (Group.rows f) := by
  obtain ⟨rowss, hrows, rfl⟩ := exists_ok_of_map h
  obtain ⟨groups, hnumbers, hflat, hgroups⟩ := exists_groups (forall₂_of_mapM_ok hrows)
  have hsorted := stablySorted_sorted d.labels
  have hlabels : groups.flatMap Group.labels = sorted d.labels := by
    have horder : (sorted d.labels).Pairwise fun a b => lineOf f a.span ≤ lineOf f b.span :=
      hsorted.order.imp (lineOf_mono f)
    have hshown : ∀ l ∈ sorted d.labels, lineOf f l.span ∈ lines f d :=
      fun l hl => mem_lines_of_label (hsorted.perm.mem_iff.mp hl)
    -- the lines are passed in the order in which the sorted labels reach them
    calc groups.flatMap Group.labels
        = groups.flatMap fun g => (sorted d.labels).filter fun l => lineOf f l.span = g.number :=
          List.flatMap_congr fun g hg => by
            rw [(hgroups g hg).1, labels_grouping, sorted_filter]
      _ = (lines f d).flatMap fun n => (sorted d.labels).filter fun l => lineOf f l.span = n := by
          rw [← hnumbers, List.flatMap_map]
      _ = sorted d.labels := flatMap_filter_of_pairwise (pairwise_lt_lines f d) horder hshown
  refine ⟨groups, ⟨?_, ?_, ?_, ?_, ?_⟩, ?_⟩
  · rw [hnumbers]
    exact pairwise_lt_lines f d
  · intro n
    rw [hnumbers]
    exact mem_lines_iff
  · intro g hg m hm
    obtain ⟨hl, hmarked⟩ := hgroups g hg
    have hmem : m.1 ∈ g.labels := List.mem_map_of_mem hm
    rw [hl, mem_sorted_labels_iff] at hmem
    exact ⟨hmem.2, hmarked m hm⟩
  · rw [hlabels]
    exact hsorted
  · intro g hg
    rw [(hgroups g hg).1, labels_grouping]
    exact stablySorted_sorted _
  · rw [hflat]

end Rows

end Excerpt

/-- **Labels are shown in one stable order**: a report that can be written has, behind its header,
the place of the diagnostic and then the lines of its labels in increasing order, each followed by
the markers of the labels that start on it; and all labels come, one by one, in the order of their
starts. -/
theorem labels_shown_in_order (color : Bool) (f : SourceFile) (d : Diagnostic) (t : Text)
    (h : Report.onDiagnostic color (some f) d = .ok t) :
    ∃ groups : List Excerpt.Group, Excerpt.Arranged f d groups ∧
      t = Report.header color d.code d.message ++
        (Row.location (if f.name.isEmpty then ascii "<input>" else f.name)
          (f.position d.span.start) :: .divider :: groups.flatMap (Excerpt.Group.rows f)).flatMap
          (Row.text color (Excerpt.gutter f d)) := by
  obtain ⟨excerpt, hexcerpt, rfl⟩ := exists_ok_of_map h
  obtain ⟨rows, hrows, rfl⟩ := exists_ok_of_map hexcerpt
  obtain ⟨groups, harranged, rfl⟩ := Excerpt.exists_arranged hrows
  exact ⟨groups, harranged, rfl⟩

/-- Four labels on three lines, one of them before the file and one behind it. Two have the same
start and keep their order. -/
theorem labels_shown_in_order_of_four :
    let f := SourceFile.ofText (ascii "t") (ascii "ab\ncd\n")
    let d : Diagnostic := ⟨ascii "E", [], ⟨1, 2⟩,
      [⟨⟨4, 5⟩, ascii "p"⟩, ⟨⟨99, 100⟩, []⟩, ⟨⟨4, 4⟩, ascii "q"⟩, ⟨⟨-3, 1⟩, ascii "r"⟩]⟩
    let t := ascii "[E] Error:\n  --> t:1:2\n   |\n 1 | ab\n   | ^ r\n" ++
      ascii " 2 | cd\n   |  ^ p\n   |  ^ q\n 3 | \n   | ^\n"
    Report.onDiagnostic false (some f) d = .ok t ∧
      ∃ groups : List Excerpt.Group, Excerpt.Arranged f d groups ∧
        t = Report.header false d.code d.message ++
          (Row.location (ascii "t") ⟨1, 2⟩ :: .divider ::
            groups.flatMap (Excerpt.Group.rows f)).flatMap (Row.text false 1) := by
  intro f d t
  have hmet : (Excerpt.grouping f d.labels).met = [2, 3, 1] := by decide +kernel
  have hlines : Excerpt.lines f d = [1, 2, 3] := by
    rw [Excerpt.lines, Excerpt.Grouping.lines, hmet]
    simp [List.mergeSort]
  have hlabels : (Excerpt.grouping f d.labels).labels 2 =
      [⟨⟨4, 5⟩, ascii "p"⟩, ⟨⟨4, 4⟩, ascii "q"⟩] := by decide +kernel
  have hsorted : Excerpt.sorted [⟨⟨4, 5⟩, ascii "p"⟩, ⟨⟨4, 4⟩, ascii "q"⟩] =
      [⟨⟨4, 5⟩, ascii "p"⟩, ⟨⟨4, 4⟩, ascii "q"⟩] := by
    simp [Excerpt.sorted, List.mergeSort]
  have h : Report.onDiagnostic false (some f) d = .ok t := by
    unfold Report.onDiagnostic Excerpt.text Excerpt.rows Excerpt.lineRows Excerpt.gutter
    simp only [hlines, List.mapM_cons, hlabels, hsorted]
    decide +kernel
  have hgutter : Excerpt.gutter f d = 1 := by
    rw [Excerpt.gutter, hlines]
    decide
  have hplace : f.position d.span.start = ⟨1, 2⟩ := by decide +kernel
  obtain ⟨groups, harranged, ht⟩ := labels_shown_in_order false f d t h
  rw [hgutter, hplace] at ht
  exact ⟨h, groups, harranged, ht⟩

end MacroCalls
