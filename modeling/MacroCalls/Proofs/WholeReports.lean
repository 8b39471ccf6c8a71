import MacroCalls.Proofs.Faults

/-!
# Reports are written whole and in order

A report is put together before any of it is written, and nothing is kept from one report for the
next. So a list of reports is written as each of them alone would be (`Report.writeAll_append`), up
to the first that the writer refuses or that faults. A report that faults does so before the writer
is asked, and a list may hold a missing failure, which faults too.

Main statement: `reports_written_whole_in_order`.
-/

namespace MacroCalls

namespace Report

/-- What the report on one failure writes to a writer that accepts it. -/
def alone (color : Bool) (file : Option SourceFile) (e : Option Failure) : Written :=
  writeAll color file none [e]

variable {color : Bool} {file : Option SourceFile}

/-! ### One report -/

theorem alone_of_render {e : Failure} {t : Text} (h : render color file e = .ok t) :
    alone color file (some e) = ⟨t, none⟩ :=
  writeAll_of_render h (by simp)

theorem alone_of_render_error {e : Failure} {f : Fault} (h : render color file e = .error f) :
    alone color file (some e) = ⟨[], some (.fault f)⟩ := by
  unfold alone writeAll
  rw [h]

/-- **A report that does not stop** is that on a failure, and it is written whole. -/
theorem exists_render_of_alone {e : Option Failure} (h : (alone color file e).stop = none) :
    ∃ x, e = some x ∧ render color file x = .ok (alone color file e).output := by
  cases e with
  | none => cases h
  | some x =>
    cases hrender : render color file x with
    | error f =>
      rw [alone_of_render_error hrender] at h
      cases h
    | ok t =>
      refine ⟨x, rfl, ?_⟩
      rw [alone_of_render hrender, hrender]

/-! ### One report of many -/

section Step

variable {e : Option Failure} (es : List (Option Failure))

/-- A report that faults is the last one, whatever the writer accepts. -/
theorem writeAll_cons_of_fault {f : Fault} (h : (alone color file e).stop = some (.fault f))
    (accepts : Option Nat) :
    writeAll color file accepts (e :: es) = ⟨[], some (.fault f)⟩ := by
  cases e with
  | none =>
    obtain rfl : .missingFailure = f := Stop.fault.inj (Option.some.inj h)
    rfl
  | some x =>
    have hrender : render color file x = .error f := stop_writeAll_eq_fault_iff.mp h
    unfold writeAll
    rw [hrender]

theorem writeAll_cons_refused (h : (alone color file e).stop = none) :
    writeAll color file (some 0) (e :: es) = ⟨[], some .refused⟩ := by
  obtain ⟨x, rfl, hrender⟩ := exists_render_of_alone h
  simp [writeAll, hrender]

/-- **One step**: an accepted report is written as it would be alone, and the others behind it. -/
theorem writeAll_cons_accepted (h : (alone color file e).stop = none) (k : Nat) :
    writeAll color file (some (k + 1)) (e :: es) =
      ⟨(alone color file e).output ++ (writeAll color file (some k) es).output,
        (writeAll color file (some k) es).stop⟩ := by
  obtain ⟨x, rfl, hrender⟩ := exists_render_of_alone h
  simp [writeAll, hrender]

end Step

/-! ### Many reports -/

/-- **Accepted reports are written one after another**, and then the rest by a writer that accepts
so many fewer. -/
theorem writeAll_append {es : List (Option Failure)}
    (hes : ∀ e ∈ es, (alone color file e).stop = none) (k : Nat) (rest : List (Option Failure)) :
    writeAll color file (some (es.length + k)) (es ++ rest) =
      ⟨(es.flatMap fun e => (alone color file e).output) ++
          (writeAll color file (some k) rest).output,
        (writeAll color file (some k) rest).stop⟩ := by
  induction es with
  | nil => rw [List.length_nil, Nat.zero_add]; rfl
  | cons e es ih =>
    obtain ⟨he, hes⟩ := List.forall_mem_cons.mp hes
    rw [List.length_cons, Nat.add_right_comm, List.cons_append, writeAll_cons_accepted _ he, ih hes,
      List.flatMap_cons, List.append_assoc]

theorem writeAll_accepted {es : List (Option Failure)}
    (hes : ∀ e ∈ es, (alone color file e).stop = none) {k : Nat} (hk : es.length ≤ k) :
    writeAll color file (some k) es = ⟨es.flatMap fun e => (alone color file e).output, none⟩ := by
  obtain ⟨n, rfl⟩ := Nat.exists_eq_add_of_le hk
  have h := writeAll_append hes n []
  rwa [List.append_nil, writeAll, List.append_nil] at h

theorem writeAll_refused {es : List (Option Failure)}
    (hes : ∀ e ∈ es, (alone color file e).stop = none) {k : Nat} (hk : k < es.length) :
    writeAll color file (some k) es =
      ⟨(es.take k).flatMap fun e => (alone color file e).output, some .refused⟩ := by
  -- the writer accepts the first `k` reports and refuses the next one
  have hlength : (es.take k).length = k := List.length_take_of_le hk.le
  have htake : ∀ e ∈ es.take k, (alone color file e).stop = none := fun e he =>
    hes e (List.mem_of_mem_take he)
  have h := writeAll_append htake 0 (es.drop k)
  rw [hlength, Nat.add_zero, List.take_append_drop, List.drop_eq_getElem_cons hk,
    writeAll_cons_refused _ (hes _ (List.getElem_mem hk)), List.append_nil] at h
  exact h

end Report

open Report in
/-- **Reports are written whole and in order.** Of a list of reports that do not fault, as many as
the writer accepts are written as each of them alone would be, and the writer's refusal is handed on
just if there are more. If a report that faults stands behind reports that are accepted, these are
written, and nothing of it or of what comes behind it. -/
theorem reports_written_whole_in_order (color : Bool) (file : Option SourceFile) (k : Nat)
    (es : List (Option Failure)) (hes : ∀ e ∈ es, (alone color file e).stop = none) :
    (∀ e ∈ es, ∃ x, e = some x ∧ render color file x = .ok (alone color file e).output) ∧
      writeAll color file (some k) es =
        ⟨(es.take k).flatMap fun e => (alone color file e).output,
          if k < es.length then some .refused else none⟩ ∧
      (es.length ≤ k → ∀ e f rest, (alone color file e).stop = some (.fault f) →
        writeAll color file (some k) (es ++ e :: rest) =
          ⟨es.flatMap fun e => (alone color file e).output, some (.fault f)⟩) := by
  refine ⟨fun e he => exists_render_of_alone (hes e he), ?_, ?_⟩
  · by_cases hk : k < es.length
    · rw [if_pos hk, writeAll_refused hes hk]
    · rw [if_neg hk, List.take_of_length_le (by omega), writeAll_accepted hes (by omega)]
  · intro hk e f rest hfault
    obtain ⟨n, rfl⟩ := Nat.exists_eq_add_of_le hk
    rw [writeAll_append hes, writeAll_cons_of_fault _ hfault, List.append_nil]

open Report in
/-- A report with an excerpt and one without, then a label that lies before the file. A writer that
accepts one report refuses the second, and one that accepts two gets to the fault. -/
theorem reports_written_whole_in_order_fault :
    let file := some (SourceFile.ofText (ascii "t") (ascii "a\nb"))
    let first : Option Failure := some (.within (ascii "x") (.format ⟨2, .unmatchedClose⟩))
    let second : Option Failure := some .canceled
    let last : Option Failure := some (.format ⟨-2, .unmatchedClose⟩)
    (alone true file first).stop = none ∧ (alone true file second).stop = none ∧
      (alone true file last).stop = some (.fault .labelBeforeFile) ∧
      writeAll true file (some 1) [first, second] =
        ⟨(alone true file first).output, some .refused⟩ ∧
      writeAll true file (some 2) [first, second, last, none] =
        ⟨(alone true file first).output ++ (alone true file second).output,
          some (.fault .labelBeforeFile)⟩ := by
  intro file first second last
  have hfirst : (alone true file first).stop = none := by decide +kernel
  have hsecond : (alone true file second).stop = none := by decide +kernel
  have hlast : (alone true file last).stop = some (.fault .labelBeforeFile) := by decide +kernel
  have hes : ∀ e ∈ [first, second], (alone true file e).stop = none :=
    List.forall_mem_cons.mpr ⟨hfirst, List.forall_mem_singleton.mpr hsecond⟩
  have hone := (reports_written_whole_in_order true file 1 _ hes).2.1
  have htwo := (reports_written_whole_in_order true file 2 _ hes).2.2 le_rfl last _ [none] hlast
  refine ⟨hfirst, hsecond, hlast, ?_, ?_⟩
  · simpa using hone
  · simpa using htwo

end MacroCalls
