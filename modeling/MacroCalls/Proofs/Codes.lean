import MacroCalls.Text.Basic

/-!
# Codes and lines

A text that is put together from parts can be taken apart again if no part is the front of another
one (`flatMap_inj_of_isPrefix`): the parts are the words of a prefix code. Lines with a line feed
behind each of them are such parts, as long as no line feed stands inside (`Text.ofLines_inj`), and
a run of lines of one kind ends at the first line of another kind (`append_inj_of_head?`).
-/

namespace MacroCalls

/-- **Words of a prefix code** that are written one after another can be told apart. -/
theorem flatMap_inj_of_isPrefix {α β : Type} {f : α → List β} {p : α → Prop}
    (hne : ∀ a, p a → f a ≠ []) (hf : ∀ a b, p a → p b → f a <+: f b → a = b) {l m : List α}
    (hl : ∀ a ∈ l, p a) (hm : ∀ a ∈ m, p a) (h : l.flatMap f = m.flatMap f) : l = m := by
  induction l generalizing m with
  | nil =>
    cases m with
    | nil => rfl
    | cons b m =>
      obtain ⟨hb, -⟩ := List.forall_mem_cons.mp hm
      rw [List.flatMap_nil, List.flatMap_cons] at h
      exact absurd (List.append_eq_nil_iff.mp h.symm).1 (hne b hb)
  | cons a l ih =>
    obtain ⟨ha, hl⟩ := List.forall_mem_cons.mp hl
    cases m with
    | nil =>
      rw [List.flatMap_nil, List.flatMap_cons] at h
      exact absurd (List.append_eq_nil_iff.mp h).1 (hne a ha)
    | cons b m =>
      obtain ⟨hb, hrest⟩ := List.forall_mem_cons.mp hm
      rw [List.flatMap_cons, List.flatMap_cons] at h
      -- both words stand at the front of one list, so one of them is the front of the other
      have hab : a = b := by
        rcases List.prefix_or_prefix_of_prefix ⟨_, h⟩ (List.prefix_append (f b) _) with hab | hba
        · exact hf a b ha hb hab
        · exact (hf b a hb ha hba).symm
      subst hab
      rw [ih hl hrest (List.append_cancel_left h)]

/-- A run of marked entries ends where one comes that is not marked. -/
theorem append_inj_of_head? {α : Type} {p : α → Prop} {xs ys r s : List α}
    (hxs : ∀ a ∈ xs, p a) (hys : ∀ a ∈ ys, p a) (hr : ∀ a ∈ r.head?, ¬ p a)
    (hs : ∀ a ∈ s.head?, ¬ p a) (h : xs ++ r = ys ++ s) : xs = ys ∧ r = s := by
  rcases List.append_eq_append_iff.mp h with ⟨t, rfl, rfl⟩ | ⟨t, rfl, rfl⟩
  · cases t with
    | nil => simp
    | cons a t => exact absurd (hys a (by simp)) (hr a rfl)
  · cases t with
    | nil => simp
    | cons a t => exact absurd (hxs a (by simp)) (hs a rfl)

namespace Text

/-- The lines, each with a line feed behind it. -/
def ofLines (ls : List Text) : Text := ls.flatMap (· ++ [newline])

@[simp] theorem ofLines_nil : ofLines [] = [] := rfl

theorem ofLines_cons (l : Text) (ls : List Text) :
    ofLines (l :: ls) = l ++ [newline] ++ ofLines ls :=
  List.flatMap_cons

theorem ofLines_append (ls ms : List Text) : ofLines (ls ++ ms) = ofLines ls ++ ofLines ms :=
  List.flatMap_append

theorem eq_of_append_newline_isPrefix {l m : Text} (hl : newline ∉ l) (hm : newline ∉ m)
    (h : l ++ [newline] <+: m ++ [newline]) : l = m := by
  obtain ⟨t, ht⟩ := h
  rcases List.append_eq_append_iff.mp ((List.append_assoc ..).symm.trans ht) with
    ⟨s, hm', hs⟩ | ⟨s, hl', hs⟩
  · cases s with
    | nil => simpa using hm'.symm
    | cons b s =>
      obtain rfl : newline = b := (List.cons.inj hs).1
      exact absurd (by simp [hm']) hm
  · cases s with
    | nil => simpa using hl'
    | cons b s =>
      obtain rfl : newline = b := (List.cons.inj hs).1
      exact absurd (by simp [hl']) hl

/-- **Lines can be told apart** by the line feeds behind them. -/
theorem ofLines_inj {ls ms : List Text} (hls : ∀ l ∈ ls, newline ∉ l)
    (hms : ∀ l ∈ ms, newline ∉ l) (h : ofLines ls = ofLines ms) : ls = ms :=
  flatMap_inj_of_isPrefix (fun _ _ => by simp)
    (fun _ _ hl hm => eq_of_append_newline_isPrefix hl hm) hls hms h

end Text

end MacroCalls
