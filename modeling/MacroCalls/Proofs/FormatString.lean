import MacroCalls.FormatString
import MacroCalls.Proofs.Utf8

/-!
# Where the pieces of a format string stand

Offsets are computed in 64 bits. While they stay below `2 ^ 63` nothing wraps around, and then every
piece of a format string and the byte that an error blames lie between the ends of the string.
-/

namespace MacroCalls

/-- The text has fewer than `2 ^ 63` bytes, so offsets into it have 64 bits. -/
def Text.Addressable (t : Text) : Prop := t.length < 0x8000000000000000

instance (t : Text) : Decidable t.Addressable := inferInstanceAs (Decidable (_ < _))

theorem wrap64_eq {n : Int} (h : 0 ≤ n) (h' : n < 0x8000000000000000) : wrap64 n = n := by
  rw [wrap64]
  exact Int.bmod_eq_of_le (by omega) (by omega)

namespace FormatString

/-- What is read of a string that starts at offset `lo` and ends at `hi` stands in it. -/
def Inside (lo hi : Int) : Except FormatError (List Piece) → Prop
  | .ok ps => ∀ p ∈ ps, lo ≤ p.span.start ∧ p.span.start < p.span.stop ∧ p.span.stop ≤ hi
  | .error e => lo ≤ e.offset ∧ e.offset < hi

theorem Inside.map_cons {lo mid hi : Int} {r : Except FormatError (List Piece)} {p : Piece}
    (h : Inside mid hi r) (hstart : p.span.start = lo) (hstop : p.span.stop = mid)
    (hlt : lo < mid) (hle : mid ≤ hi) : Inside lo hi (r.map (p :: ·)) := by
  cases r with
  | error e =>
    obtain ⟨hmid, hhi⟩ := h
    exact ⟨by omega, hhi⟩
  | ok ps =>
    intro q hq
    rcases List.mem_cons.mp hq with rfl | hq
    · omega
    · have := h q hq
      omega

theorem inside_error {base : Int} {i j n : Nat} (h : 0 ≤ base)
    (hlt : base + i + n < 0x8000000000000000) (hi : i ≤ j) (hj : j < i + n)
    (reason : FormatError.Reason) :
    Inside (base + i) (base + i + n) (.error ⟨wrap64 (base + j), reason⟩) := by
  rw [Inside, wrap64_eq (by omega) (by omega)]
  dsimp only
  omega

theorem length_takeWhile_add_length_dropWhile (p : UInt8 → Bool) (t : Text) :
    (t.takeWhile p).length + (t.dropWhile p).length = t.length := by
  rw [← List.length_append, List.takeWhile_append_dropWhile]

/-- **Pieces and errors stand in the string** as long as no offset wraps around. -/
theorem inside_pieces {base : Int} {i : Nat} {t : Text} (h : 0 ≤ base)
    (hlt : base + i + t.length < 0x8000000000000000) :
    Inside (base + i) (base + i + t.length) (pieces base i t) := by
  fun_induction pieces base i t with
  | case1 i => simp [Inside]
  | case2 i rest => exact inside_error h hlt (by omega) (by simp) _
  | case3 i rest hdrop => exact inside_error h hlt (by omega) (by simp) _
  | case4 i rest after hne hdrop => exact inside_error h hlt (by omega) (by simp) _
  | case5 i rest inner c after hdrop hc j hj =>
    have hsum : inner.length + (rest.dropWhile isPlain).length = rest.length :=
      length_takeWhile_add_length_dropWhile isPlain rest
    rw [Text.offset?_not_isBlank] at hj
    have hfound := (List.findIdx?_eq_some_iff_getElem.mp hj).1
    refine inside_error h hlt (by omega) ?_ _
    rw [List.length_cons]
    omega
  | case6 i rest inner c after hdrop hc hinner hlen next hne ih =>
    have hsum : inner.length + (rest.dropWhile isPlain).length = rest.length :=
      length_takeWhile_add_length_dropWhile isPlain rest
    rw [hdrop, List.length_cons] at hsum
    rw [List.length_cons] at hlt ⊢
    -- what is left starts behind the closing brace and ends where the string does
    have hend : base + i + (rest.length + 1 : Nat) = base + next + after.length := by omega
    rw [hend] at hlt ⊢
    exact (ih hlt).map_cons (wrap64_eq (by omega) (by omega)) (wrap64_eq (by omega) (by omega))
      (by omega) (by omega)
  | case7 i b rest hclose hopen stretch hlen next ih =>
    have hsum := length_takeWhile_add_length_dropWhile isPlain rest
    have hstretch : stretch.length = (rest.takeWhile isPlain).length + 1 := rfl
    rw [List.length_cons] at hlt ⊢
    have hend : base + i + (rest.length + 1 : Nat) =
        base + next + (rest.dropWhile isPlain).length := by omega
    rw [hend] at hlt ⊢
    exact (ih hlt).map_cons (wrap64_eq (by omega) (by omega)) (wrap64_eq (by omega) (by omega))
      (by omega) (by omega)

end FormatString

end MacroCalls
