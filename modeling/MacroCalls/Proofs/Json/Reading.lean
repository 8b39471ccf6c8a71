import MacroCalls.Json.Read
import MacroCalls.Proofs.Json.Lexemes

/-!
# Written values are read back

A written value is fed to the reader text by text. Feeding a lexeme is one step of the reader with
its token, feeding blanks is none, and feeding a whole value where one is due takes the reader to
the place behind it (`Reading.feed_write`). The induction is over the value, with the items of an
array and the members of an object each taking the reader from one item to the next.

Main statement: `read?_write`. Whatever blanks a layout uses, reading gives the value back with its
strings repaired, as long as numbers are integers and nothing is nested too deep.
-/

namespace MacroCalls.Json

open Text

/-! ### The value that comes back -/

mutual

/-- The value with all its strings and keys repaired. -/
def repaired : Json → Json
  | null => null
  | bool b => bool b
  | number lexeme => number lexeme
  | string s => string s.repaired
  | array items => array (repairedItems items)
  | object members => object (repairedMembers members)

/-- Each item repaired. -/
def repairedItems : List Json → List Json
  | [] => []
  | j :: rest => j.repaired :: repairedItems rest

/-- Each member with its key repaired. -/
def repairedMembers : List (Text × Json) → List (Text × Json)
  | [] => []
  | (key, j) :: rest => (key.repaired, j.repaired) :: repairedMembers rest

end

mutual

/-- All numbers are integers, and arrays and objects are nested at most `n` deep. -/
def Plain (n : Nat) : Json → Prop
  | number lexeme => ∃ i : Int, lexeme = integer i
  | array items => 0 < n ∧ PlainItems (n - 1) items
  | object members => 0 < n ∧ PlainMembers (n - 1) members
  | _ => True

/-- Each item is plain. -/
def PlainItems (n : Nat) : List Json → Prop
  | [] => True
  | j :: rest => j.Plain n ∧ PlainItems n rest

/-- The value of each member is plain. -/
def PlainMembers (n : Nat) : List (Text × Json) → Prop
  | [] => True
  | (_, j) :: rest => j.Plain n ∧ PlainMembers n rest

end

/-- A layout that puts nothing but blanks between tokens. -/
structure Layout.IsBlank (l : Layout) : Prop where
  lineBreak : ∀ depth, ∀ b ∈ l.lineBreak depth, isBlank b
  afterColon : ∀ b ∈ l.afterColon, isBlank b

theorem Layout.isBlank_compact : Layout.compact.IsBlank := ⟨by simp [compact], by simp [compact]⟩

/-! ### Feeding a reader -/

theorem tokens?_eq (t : Text) :
    tokens? t =
      match t.dropWhile isBlank with
      | [] => some []
      | b :: rest =>
        (Token.first? (b :: rest)).bind fun (k, after) => (tokens? after).map (k :: ·) := by
  rw [tokens?]
  split
  · rename_i h
    rw [h]
  · rename_i b rest h
    split
    · rename_i hk
      simp only [h, hk, Option.bind_none]
    · rename_i k after hk
      simp only [h, hk, Option.bind_some]

namespace Reading

/-- What comes next behind a text. -/
def feed (r : Reading) (t : Text) : Option Reading := (tokens? t).bind r.run

theorem feed_nil (r : Reading) : r.feed [] = some r := by
  rw [feed, tokens?_eq]
  rfl

theorem feed_blank {g : Text} (hg : ∀ b ∈ g, isBlank b) (r : Reading) (t : Text) :
    r.feed (g ++ t) = r.feed t := by
  rw [feed, tokens?_eq, List.dropWhile_append_of_pos hg, ← tokens?_eq, feed]

/-- **A token** is one step. -/
theorem feed_token {b : UInt8} {t after : Text} {k : Token} (hb : isBlank b = false)
    (h : Token.first? (b :: t) = some (k, after)) (r : Reading) :
    r.feed (b :: t) = (r.step k).bind fun r => r.feed after := by
  rw [feed, tokens?_eq, List.dropWhile_cons_of_neg (by simp [hb])]
  dsimp only
  rw [h]
  simp only [Option.bind_some, feed]
  cases hs : r.step k with
  | none => cases tokens? after <;> simp [run, hs]
  | some r' => cases tokens? after <;> simp [run, hs]

theorem feed_mark {b : UInt8} {k : Token} (hb : isBlank b = false) (h : Token.mark? b = some k)
    (r : Reading) (t : Text) : r.feed (b :: t) = (r.step k).bind fun r => r.feed t :=
  feed_token hb (by rw [Token.first?, h]) r

theorem feed_stringText (r : Reading) (s t : Text) :
    r.feed (stringText s ++ t) = (r.step (.string s.repaired)).bind fun r => r.feed t := by
  have h := Token.first?_stringText s t
  rw [stringText, List.cons_append, List.cons_append] at h ⊢
  exact feed_token (by decide) h r

theorem feed_integer (i : Int) {t : Text} (ht : EndsNumber t) (r : Reading) :
    r.feed (integer i ++ t) =
      (r.step (.atom (.number (integer i)))).bind fun r => r.feed t := by
  have h := Token.first?_integer i ht
  obtain ⟨b, w, hbw, hb⟩ := exists_integer_eq_cons i
  rw [hbw] at h ⊢
  refine feed_token ?_ h r
  rcases hb with rfl | hb
  · rfl
  · exact not_isBlank_of_isDigit hb

theorem feed_word (word : Text) (j : Json) (h : (word, j) ∈ words) (r : Reading) (t : Text) :
    r.feed (word ++ t) = (r.step (.atom j)).bind fun r => r.feed t := by
  have hfirst := Token.first?_word h t
  simp only [words, List.mem_cons, Prod.mk.injEq, List.not_mem_nil, or_false] at h
  rcases h with ⟨rfl, rfl⟩ | ⟨rfl, rfl⟩ | ⟨rfl, rfl⟩
  · exact feed_token (by decide) hfirst r
  · exact feed_token (by decide) hfirst r
  · exact feed_token (by decide) hfirst r

theorem step_arrayOpen {stack : List Frame} (h : stack.length < maxDepth) :
    (value stack).step .arrayOpen = some (arrayStart stack) := by
  rw [step, stepValue, if_pos h]

theorem step_objectOpen {stack : List Frame} (h : stack.length < maxDepth) :
    (value stack).step .objectOpen = some (objectStart stack) := by
  rw [step, stepValue, if_pos h]

end Reading

/-! ### Layouts -/

/-- What stands behind an item: the further items and the closing bracket. -/
def Layout.behind (l : Layout) (depth : Nat) (last : UInt8) (items : List Text) : Text :=
  items.flatMap (fun t => 0x2C :: l.lineBreak (depth + 1) ++ t) ++ l.lineBreak depth ++ [last]

theorem Layout.enclose_cons (l : Layout) (depth : Nat) (first last : UInt8) (item : Text)
    (items : List Text) :
    l.enclose depth first last (item :: items) =
      first :: (l.lineBreak (depth + 1) ++ (item ++ l.behind depth last items)) := by
  simp [enclose, behind]

theorem Layout.behind_nil (l : Layout) (depth : Nat) (last : UInt8) :
    l.behind depth last [] = l.lineBreak depth ++ [last] := by
  simp [behind]

theorem Layout.behind_cons (l : Layout) (depth : Nat) (last : UInt8) (item : Text)
    (items : List Text) :
    l.behind depth last (item :: items) =
      0x2C :: (l.lineBreak (depth + 1) ++ (item ++ l.behind depth last items)) := by
  simp [behind]

theorem endsNumber_append {g t : Text} (hg : ∀ b ∈ g, isBlank b) (ht : EndsNumber t) :
    EndsNumber (g ++ t) := by
  cases g with
  | nil => exact ht
  | cons b g =>
    have hb := hg b (by simp)
    simp only [isBlank, Bool.or_eq_true, beq_iff_eq] at hb
    intro b' hb'
    cases hb'
    rcases hb with ((rfl | rfl) | rfl) | rfl <;> rfl

theorem Layout.IsBlank.endsNumber_behind {l : Layout} (hl : l.IsBlank) {last : UInt8}
    (hlast : continuesNumber last = false) (depth : Nat) (items : List Text) (t : Text) :
    EndsNumber (l.behind depth last items ++ t) := by
  have hcons : ∀ {b : UInt8} {w : Text}, continuesNumber b = false → EndsNumber (b :: w) := by
    intro b w hb b' hb'
    cases hb'
    exact hb
  cases items with
  | nil =>
    rw [behind_nil, List.append_assoc]
    exact endsNumber_append (hl.lineBreak depth) (hcons hlast)
  | cons item items =>
    rw [behind_cons]
    exact hcons rfl

namespace Reading

/-- A written value starts with a token that does not end an array. -/
theorem exists_feed_write {n : Nat} {j : Json} (h : j.Plain n) (l : Layout) (depth : Nat)
    {t : Text} (ht : EndsNumber t) :
    ∃ k rest, k ≠ .arrayClose ∧
      ∀ r : Reading, r.feed (write l depth j ++ t) = (r.step k).bind fun r => r.feed rest := by
  cases j with
  | null => exact ⟨.atom .null, t, nofun, fun r => feed_word _ .null (.head _) r t⟩
  | bool b =>
    refine ⟨.atom (.bool b), t, nofun, fun r => ?_⟩
    cases b
    · exact feed_word _ (.bool false) (.tail _ (.tail _ (.head _))) r t
    · exact feed_word _ (.bool true) (.tail _ (.head _)) r t
  | number lexeme =>
    obtain ⟨i, rfl⟩ := h
    exact ⟨.atom (.number (integer i)), t, nofun, feed_integer i ht⟩
  | string s => exact ⟨.string s.repaired, t, nofun, fun r => feed_stringText r s t⟩
  | array items =>
    cases items with
    | nil => exact ⟨.arrayOpen, _, nofun, fun r => feed_mark (by decide) rfl r _⟩
    | cons j items =>
      rw [write, writeItems, Layout.enclose_cons]
      exact ⟨.arrayOpen, _, nofun, fun r => feed_mark (by decide) rfl r _⟩
  | object members =>
    rcases members with _ | ⟨⟨k, j⟩, members⟩
    · exact ⟨.objectOpen, _, nofun, fun r => feed_mark (by decide) rfl r _⟩
    · rw [write, writeMembers, Layout.enclose_cons]
      exact ⟨.objectOpen, _, nofun, fun r => feed_mark (by decide) rfl r _⟩

/-- The first item of an array is read like any other value. -/
theorem feed_arrayStart {n : Nat} {j : Json} (h : j.Plain n) {t : Text} (ht : EndsNumber t)
    {l : Layout} {depth : Nat} {stack : List Frame} :
    (arrayStart stack).feed (write l depth j ++ t) =
      (value (.array [] :: stack)).feed (write l depth j ++ t) := by
  obtain ⟨k, rest, hk, hfeed⟩ := exists_feed_write h l depth ht
  rw [hfeed, hfeed]
  cases k <;> first | exact absurd rfl hk | rfl

variable {l : Layout} (hl : l.IsBlank)
include hl

/-- Behind its key the value of a member is due. -/
theorem feed_key {r : Reading} {done : List (Text × Json)} {stack : List Frame} {k : Text}
    (hr : r.step (.string k.repaired) = some (colon done k.repaired stack)) (w t : Text) :
    r.feed ((stringText k ++ 0x3A :: l.afterColon ++ w) ++ t) =
      (value (.object done k.repaired :: stack)).feed (w ++ t) := by
  simp only [List.append_assoc, List.cons_append]
  rw [feed_stringText, hr, Option.bind_some, feed_mark (by decide) rfl]
  simp only [step, Option.bind_some]
  rw [feed_blank hl.afterColon]

mutual

/-- **Feeding a value** where one is due takes the reader behind it. -/
theorem feed_write : ∀ (j : Json) (n depth : Nat) (stack : List Frame) (t : Text), j.Plain n →
    stack.length + n ≤ maxDepth → EndsNumber t →
    (value stack).feed (write l depth j ++ t) = (after j.repaired stack).feed t
  | .null, n, depth, stack, t, _, _, _ => by
    rw [write, feed_word _ .null (.head _)]
    rfl
  | .bool false, n, depth, stack, t, _, _, _ => feed_word _ _ (.tail _ (.tail _ (.head _))) _ t
  | .bool true, n, depth, stack, t, _, _, _ => feed_word _ _ (.tail _ (.head _)) _ t
  | .number lexeme, n, depth, stack, t, h, _, ht => by
    obtain ⟨i, rfl⟩ := h
    rw [write, feed_integer i ht]
    rfl
  | .string s, n, depth, stack, t, _, _, _ => by
    rw [write, feed_stringText]
    rfl
  | .array [], n, depth, stack, t, h, hn, _ => by
    have hroom : stack.length < maxDepth := by have := h.1; omega
    rw [write, writeItems, Layout.enclose, List.cons_append, List.cons_append,
      feed_mark (by decide) rfl, step_arrayOpen hroom, Option.bind_some, feed_mark (by decide) rfl]
    rfl
  | .array (j :: items), n, depth, stack, t, h, hn, _ => by
    obtain ⟨hpos, hj, hitems⟩ := h
    have hends := hl.endsNumber_behind (by decide : continuesNumber 0x5D = false) depth
      (writeItems l (depth + 1) items) t
    rw [write, writeItems, Layout.enclose_cons, List.cons_append, List.append_assoc,
      List.append_assoc, feed_mark (by decide) rfl, step_arrayOpen (by omega), Option.bind_some,
      feed_blank (hl.lineBreak _), feed_arrayStart hj hends,
      feed_write j (n - 1) _ _ _ hj (by rw [List.length_cons]; omega) hends,
      feed_items items (n - 1) _ _ _ _ _ hitems (by omega)]
    rfl
  | .object [], n, depth, stack, t, h, hn, _ => by
    have hroom : stack.length < maxDepth := by have := h.1; omega
    rw [write, writeMembers, Layout.enclose, List.cons_append, List.cons_append,
      feed_mark (by decide) rfl, step_objectOpen hroom, Option.bind_some, feed_mark (by decide) rfl]
    rfl
  | .object ((k, j) :: members), n, depth, stack, t, h, hn, _ => by
    obtain ⟨hpos, hj, hmembers⟩ := h
    have hends := hl.endsNumber_behind (by decide : continuesNumber closeBrace = false) depth
      (writeMembers l (depth + 1) members) t
    rw [write, writeMembers, Layout.enclose_cons, List.cons_append, List.append_assoc,
      List.append_assoc, feed_mark (by decide) rfl, step_objectOpen (by omega), Option.bind_some,
      feed_blank (hl.lineBreak _), feed_key hl rfl,
      feed_write j (n - 1) _ _ _ hj (by rw [List.length_cons]; omega) hends,
      feed_members members (n - 1) _ _ _ _ _ _ hmembers (by omega)]
    rfl

theorem feed_items : ∀ (items : List Json) (n depth : Nat) (stack : List Frame) (t : Text)
    (j : Json) (done : List Json), PlainItems n items → stack.length + 1 + n ≤ maxDepth →
    (after j (.array done :: stack)).feed
        (l.behind depth 0x5D (writeItems l (depth + 1) items) ++ t) =
      (after (.array (done.reverse ++ j :: repairedItems items)) stack).feed t
  | [], n, depth, stack, t, j, done, _, _ => by
    rw [writeItems, Layout.behind_nil, List.append_assoc, feed_blank (hl.lineBreak _),
      List.singleton_append, feed_mark (by decide) rfl]
    simp [step, stepAfter, repairedItems]
  | i :: items, n, depth, stack, t, j, done, h, hn => by
    have hends := hl.endsNumber_behind (by decide : continuesNumber 0x5D = false) depth
      (writeItems l (depth + 1) items) t
    rw [writeItems, Layout.behind_cons, List.cons_append, List.append_assoc, List.append_assoc,
      feed_mark (by decide) rfl]
    simp only [step, stepAfter, Option.bind_some]
    rw [feed_blank (hl.lineBreak _),
      feed_write i n _ _ _ h.1 (by rw [List.length_cons]; omega) hends,
      feed_items items n _ _ _ _ _ h.2 hn]
    simp [repairedItems]

theorem feed_members : ∀ (members : List (Text × Json)) (n depth : Nat) (stack : List Frame)
    (t : Text) (k : Text) (j : Json) (done : List (Text × Json)), PlainMembers n members →
    stack.length + 1 + n ≤ maxDepth →
    (after j (.object done k :: stack)).feed
        (l.behind depth closeBrace (writeMembers l (depth + 1) members) ++ t) =
      (after (.object (done.reverse ++ (k, j) :: repairedMembers members)) stack).feed t
  | [], n, depth, stack, t, k, j, done, _, _ => by
    rw [writeMembers, Layout.behind_nil, List.append_assoc, feed_blank (hl.lineBreak _),
      List.singleton_append, feed_mark (by decide) rfl]
    simp [step, stepAfter, repairedMembers]
  | (k', i) :: members, n, depth, stack, t, k, j, done, h, hn => by
    have hends := hl.endsNumber_behind (by decide : continuesNumber closeBrace = false) depth
      (writeMembers l (depth + 1) members) t
    rw [writeMembers, Layout.behind_cons, List.cons_append, List.append_assoc, List.append_assoc,
      feed_mark (by decide) rfl]
    simp only [step, stepAfter, Option.bind_some]
    rw [feed_blank (hl.lineBreak _), feed_key hl rfl,
      feed_write i n _ _ _ h.1 (by rw [List.length_cons]; omega) hends,
      feed_members members n _ _ _ _ _ _ h.2 hn]
    simp [repairedMembers]

end

end Reading

/-- **Written values are read back** with their strings repaired. -/
theorem read?_write {l : Layout} (hl : l.IsBlank) {j : Json} (h : j.Plain maxDepth) :
    read? (write l 0 j) = some j.repaired := by
  have hfeed : (Reading.value []).feed (write l 0 j) = some (.after j.repaired []) := by
    have hwrite := Reading.feed_write hl j maxDepth 0 [] [] h (by simp) nofun
    rwa [List.append_nil, Reading.feed_nil] at hwrite
  rw [Reading.feed, Option.bind_eq_some_iff] at hfeed
  obtain ⟨tokens, htokens, hrun⟩ := hfeed
  rw [read?, htokens, Option.bind_some, ofTokens?, hrun]

end MacroCalls.Json
