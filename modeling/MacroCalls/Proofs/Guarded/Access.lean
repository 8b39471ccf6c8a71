import MacroCalls.Proofs.LineIndex
import MacroCalls.SyntaxError

/-!
# Guarded accesses

The definitions of the library are total: a slice that reaches too far is cut, an index below zero
is taken for zero. Beside them stand *guarded* ones, written with accesses that give nothing at all
where an index or a bound is out of range or a count is negative, and with texts cut by offsets
instead of taken apart from the front.

Each guarded function has its statement that it gives what the library's does. So no index, bound
or count is ever out of range there, and cutting and clamping hide nothing. Here are the accesses,
the positions of offsets and the messages of syntax errors.
-/

namespace MacroCalls

open Text

namespace Guarded

/-- The bytes at the offsets `[lo, hi)`, if these are offsets of the text in this order. -/
def slice (t : Text) (lo hi : Int) : Option Text :=
  if 0 ≤ lo ∧ lo ≤ hi ∧ hi ≤ t.length then some (t.slice lo.toNat hi.toNat) else none

/-- The entry at an index, if there is one. -/
def entry {α : Type} (l : List α) (i : Int) : Option α := if 0 ≤ i then l[i.toNat]? else none

/-- The list without its first `i` entries, if there are so many. -/
def dropFirst {α : Type} (l : List α) (i : Int) : Option (List α) :=
  if 0 ≤ i ∧ i ≤ l.length then some (l.drop i.toNat) else none

/-- The first `i` entries of a list, if there are so many. -/
def takeFirst {α : Type} (l : List α) (i : Int) : Option (List α) :=
  if 0 ≤ i ∧ i ≤ l.length then some (l.take i.toNat) else none

/-- So many copies of a byte, if the number is not negative. -/
def copies (n : Int) (b : UInt8) : Option Text :=
  if 0 ≤ n then some (List.replicate n.toNat b) else none

/-- The position of an offset. -/
def position (f : SourceFile) (offset : Int) : Option Position := do
  let o := f.text.clamp offset
  let n := f.lineAt o
  let start ← entry f.starts.toList (n - 1)
  let front ← slice f.text start o
  some ⟨n, front.glyphCount + 1⟩

/-- Alternatives in a sentence. -/
def alternatives (items : List Text) : Option Text :=
  if items.length = 1 then entry items 0
  else do
    let front ← takeFirst items (items.length - 1)
    let last ← entry items (items.length - 1)
    some ((ascii ", ").intercalate front ++ ascii " or " ++ last)

/-- A syntax error as one sentence. -/
def message (e : SyntaxError) : Option Text := do
  let found := Text.integer e.line ++ ascii ":" ++ Text.integer e.column ++ ascii ": unexpected " ++
    e.foundDescription ++ (if e.context = [] then [] else ascii " in " ++ e.context)
  if 0 < (e.expected.getD []).length then
    let choice ← alternatives (e.expected.getD [])
    some (found ++ (ascii ", expected " ++ choice))
  else some found

/-! ### Accesses in range -/

section Access

variable {α β : Type}

theorem slice_eq {t : Text} {lo hi : Int} (h : 0 ≤ lo) (h' : lo ≤ hi) (hlen : hi ≤ t.length) :
    slice t lo hi = some (t.slice lo.toNat hi.toNat) :=
  if_pos ⟨h, h', hlen⟩

@[simp] theorem entry_natCast (l : List α) (i : Nat) : entry l i = l[i]? := by
  simp [entry]

theorem entry_pred {l : List α} {n : Nat} (h : 0 < n) : entry l (n - 1 : Int) = l[n - 1]? := by
  rw [← entry_natCast]
  congr 1
  omega

theorem dropFirst_eq {l : List α} {i : Nat} (h : i ≤ l.length) :
    dropFirst l i = some (l.drop i) := by
  rw [dropFirst, if_pos ⟨by omega, by omega⟩, Int.toNat_natCast]

@[simp] theorem copies_natCast (n : Nat) (b : UInt8) : copies n b = some (List.replicate n b) := by
  simp [copies]

theorem copies_pred {n : Nat} (h : 0 < n) (b : UInt8) :
    copies (n - 1 : Int) b = some (List.replicate (n - 1) b) := by
  rw [← copies_natCast]
  congr 1
  omega

theorem mapM_of_forall {f : α → Option β} {g : α → β} {l : List α}
    (h : ∀ a ∈ l, f a = some (g a)) : l.mapM f = some (l.map g) := by
  induction l with
  | nil => rfl
  | cons a l ih =>
    rw [List.mapM_cons, h a (by simp), ih fun b hb => h b (by simp [hb])]
    rfl

end Access

/-! ### Positions and messages -/

theorem getElem?_starts (f : SourceFile) (i : Nat) (h : i < f.starts.size) :
    f.starts.toList[i]? = some f.starts[i] := by
  rw [Array.getElem?_toList, Array.getElem?_eq_getElem h]

/-- The line of an offset exists and has started there. -/
theorem position_eq (f : SourceFile) (offset : Int) :
    position f offset = some (f.position offset) := by
  have hpos := f.lineAt_pos (f.text.clamp offset)
  have hle := f.lineAt_le (f.text.clamp offset)
  have hlt : f.lineAt (f.text.clamp offset) - 1 < f.starts.size := by omega
  have hstart := f.starts_lineAt_le _ hlt
  have hclamp := f.text.clamp_le offset
  simp only [position, entry_pred hpos, getElem?_starts f _ hlt, Option.bind_eq_bind,
    Option.bind_some]
  rw [slice_eq (by omega) (by omega) (by omega)]
  rfl

theorem exists_alternatives {items : List Text} (h : items ≠ []) :
    ∃ choice, alternatives items = some choice ∧ alternatives? items = some choice := by
  obtain ⟨front, last, hitems⟩ := (List.eq_nil_or_concat items).resolve_left h
  rw [List.concat_eq_append] at hitems
  subst hitems
  have hfront : takeFirst (front ++ [last]) ((front ++ [last]).length - 1) = some front := by
    have hlen : (front ++ [last]).length = front.length + 1 := by simp
    rw [takeFirst, hlen, if_pos (by omega)]
    simp
  have hlast : entry (front ++ [last]) ((front ++ [last]).length - 1) = some last := by
    rw [entry_pred (by simp)]
    simp
  rw [alternatives, alternatives?, List.getLast?_concat, List.dropLast_concat, hfront, hlast]
  cases front with
  | nil => exact ⟨last, rfl, rfl⟩
  | cons a front =>
    rw [if_neg (by simp)]
    exact ⟨_, rfl, rfl⟩

/-- **Guarded messages** of syntax errors are their messages. -/
theorem message_eq (e : SyntaxError) : message e = some e.message := by
  rw [message, SyntaxError.message]
  cases hexp : e.expected.getD [] with
  | nil => simp [alternatives?]
  | cons a rest =>
    obtain ⟨choice, hguarded, hchoice⟩ := exists_alternatives (List.cons_ne_nil a rest)
    rw [if_pos (by simp), hguarded, hchoice]
    rfl

end Guarded

end MacroCalls
