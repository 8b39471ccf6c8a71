import MacroCalls.Proofs.Json.Lexemes
import MacroCalls.Text.Painted
import Mathlib.Tactic.SplitIfs

/-!
# Painted texts

Color is a terminal sequence before a stretch of text and another one behind it. A text is
*unpainted* by deleting all terminal sequences in it, from the front on. `Text.Decorates x y` says
that `x` is `y` with terminal sequences put in, whatever stands behind the two: nothing in `x` can
then make a sequence together with what follows. Painted texts decorate the plain ones, and so does
everything that is put together from such parts.
-/

namespace MacroCalls.Text

/-! ### Bytes of painted texts -/

theorem not_mem_of_forall_le {b : UInt8} {t : Text} (hb : b < 0x20) (h : ∀ c ∈ t, 0x20 ≤ c) :
    b ∉ t := fun hmem => UInt8.not_lt.mpr (h b hmem) hb

/-- The fixed words of a message hold no control character. -/
theorem not_mem_ascii {b : UInt8} {s : String} (hb : b < 0x20)
    (h : (ascii s).all (fun c => decide (0x20 ≤ c)) = true) : b ∉ ascii s :=
  not_mem_of_forall_le hb fun c hc => of_decide_eq_true (List.all_eq_true.mp h c hc)

theorem not_mem_spaces {b : UInt8} (hb : b < 0x20) (n : Nat) : b ∉ spaces n :=
  not_mem_of_forall_le hb fun c hc => by
    rw [List.eq_of_mem_replicate hc]
    decide

theorem not_mem_decimal {b : UInt8} (hb : b < 0x20) (n : Nat) : b ∉ decimal n := by
  refine not_mem_of_forall_le hb fun c hc => ?_
  have hdigit := Json.isDigit_of_mem_decimal n c hc
  simp only [Json.isDigit, Bool.and_eq_true, decide_eq_true_eq] at hdigit
  exact UInt8.le_trans (by decide) hdigit.1

section Painted

variable {on : Bool} {color : Color} {t u : Text}

theorem painted_inj (h : t.painted on color = u.painted on color) : t = u := by
  cases on with
  | false => exact h
  | true => exact List.append_cancel_left (List.append_cancel_right h)

/-- Paint brings no control character into a text other than the escape. -/
theorem not_mem_painted {b : UInt8} (hb : b < 0x20) (hon : on = true → b ≠ escape) (h : b ∉ t) :
    b ∉ t.painted on color := by
  cases on with
  | false => exact h
  | true =>
    have hcode : b ∉ decimal color.code := not_mem_decimal hb _
    have hopen : b ∉ ascii "[" := not_mem_ascii hb (by decide)
    have hclose : b ∉ ascii "m" := not_mem_ascii hb (by decide)
    have hreset : b ∉ ascii "[0m" := not_mem_ascii hb (by decide)
    simp [painted, hon rfl, h, hcode, hopen, hclose, hreset]

end Painted

/-! ### Deleting terminal sequences -/

/-- What stands behind the terminal sequence at the front of a text: an escape, `[`, one digit or
more, and `m`. -/
def behindSequence? : Text → Option Text
  | b :: bracket :: rest =>
    if b = escape ∧ bracket = 0x5B then
      match Json.digits? rest with
      | some (_, m :: after) => if m = 0x6D then some after else none
      | _ => none
    else none
  | _ => none

theorem length_lt_of_behindSequence? {t after : Text} (h : behindSequence? t = some after) :
    after.length < t.length := by
  unfold behindSequence? at h
  split at h
  · split_ifs at h
    split at h
    · rename_i hdigits
      have := Json.digits?_length hdigits
      split_ifs at h
      cases h
      simp only [List.length_cons] at *
      omega
    · cases h
  · cases h

/-- The text without its terminal sequences. -/
def unpainted : Text → Text
  | [] => []
  | b :: rest =>
    match _h : behindSequence? (b :: rest) with
    | some after => unpainted after
    | none => b :: unpainted rest
termination_by t => t.length
decreasing_by
  · exact length_lt_of_behindSequence? _h
  · exact Nat.lt_succ_self _

@[simp] theorem unpainted_nil : unpainted [] = [] := by
  rw [unpainted]

theorem unpainted_of_sequence {t after : Text} (h : behindSequence? t = some after) :
    t.unpainted = after.unpainted := by
  cases t with
  | nil => cases h
  | cons b t =>
    rw [unpainted]
    split
    · rename_i h'
      rw [h] at h'
      rw [Option.some.inj h']
    · rename_i h'
      rw [h] at h'
      cases h'

theorem unpainted_cons {b : UInt8} (h : b ≠ escape) (t : Text) :
    unpainted (b :: t) = b :: t.unpainted := by
  have hnone : behindSequence? (b :: t) = none := by
    cases t with
    | nil => rfl
    | cons c t => rw [behindSequence?, if_neg (by simp [h])]
  rw [unpainted]
  split
  · rename_i h'
    rw [hnone] at h'
    cases h'
  · rfl

/-- A sequence without digits stays, also where a proper one is deleted right behind it. -/
example : unpainted (escape :: ascii "[31ma" ++ escape :: ascii "[m" ++ escape :: ascii "[0mb") =
    0x61 :: escape :: ascii "[mb" := by
  decide +kernel

theorem behindSequence?_append {ds : Text} (hds : ∀ b ∈ ds, Json.isDigit b) (hne : ds ≠ [])
    (t : Text) : behindSequence? (escape :: 0x5B :: (ds ++ 0x6D :: t)) = some t := by
  have hend : Json.EndsNumber (0x6D :: t) := fun b hb => by
    cases hb
    decide
  rw [behindSequence?, if_pos ⟨rfl, rfl⟩, Json.digits?_append hds hne hend]
  rfl

/-! ### Decorated texts -/

/-- The text `x` is `y` with terminal sequences put in, whatever stands behind the two. -/
def Decorates (x y : Text) : Prop := ∀ t, unpainted (x ++ t) = y ++ unpainted t

namespace Decorates

variable {x x' y y' : Text}

theorem unpainted_eq (h : Decorates x y) : x.unpainted = y := by
  simpa using h []

theorem nil : Decorates [] [] := fun _ => rfl

theorem append (h : Decorates x y) (h' : Decorates x' y') : Decorates (x ++ x') (y ++ y') := by
  intro t
  rw [List.append_assoc, h, h', List.append_assoc]

theorem flatMap {α : Type} {l : List α} {f g : α → Text} (h : ∀ a ∈ l, Decorates (f a) (g a)) :
    Decorates (l.flatMap f) (l.flatMap g) := by
  induction l with
  | nil => exact nil
  | cons a l ih =>
    obtain ⟨ha, hl⟩ := List.forall_mem_cons.mp h
    rw [List.flatMap_cons, List.flatMap_cons]
    exact ha.append (ih hl)

/-- A text without escapes decorates itself. -/
theorem rfl_of_not_mem (h : escape ∉ y) : Decorates y y := by
  intro t
  induction y with
  | nil => rfl
  | cons b y ih =>
    rw [List.mem_cons, not_or] at h
    rw [List.cons_append, unpainted_cons (Ne.symm h.1), ih h.2, List.cons_append]

theorem sequence {ds : Text} (hds : ∀ b ∈ ds, Json.isDigit b) (hne : ds ≠ []) :
    Decorates (escape :: 0x5B :: (ds ++ [0x6D])) [] := by
  intro t
  rw [List.cons_append, List.cons_append, List.append_assoc, List.singleton_append,
    unpainted_of_sequence (behindSequence?_append hds hne t), List.nil_append]

/-- **Paint decorates** what it is put on. -/
theorem painted (h : escape ∉ y) (color : Color) :
    Decorates (y.painted true color) (y.painted false color) := by
  have hcode := sequence (Json.isDigit_of_mem_decimal color.code) (decimal_ne_nil color.code)
  have hreset := sequence (Json.isDigit_of_mem_decimal 0) (decimal_ne_nil 0)
  have hpainted := (hcode.append (rfl_of_not_mem h)).append hreset
  have hparts : y.painted true color = escape :: 0x5B :: (decimal color.code ++ [0x6D]) ++ y ++
      escape :: 0x5B :: (decimal 0 ++ [0x6D]) := by
    have hopen : ascii "[" = [0x5B] := by decide
    have hclose : ascii "m" = [0x6D] := by decide
    have hoff : ascii "[0m" = 0x5B :: (decimal 0 ++ [0x6D]) := by decide
    rw [Text.painted, if_pos rfl, hopen, hclose, hoff]
    rfl
  rw [hparts]
  rwa [List.nil_append, List.append_nil] at hpainted

end Decorates

end MacroCalls.Text
