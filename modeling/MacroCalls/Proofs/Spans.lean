import MacroCalls.Proofs.Derivation

/-!
# Where parsed trees stand in their source

Every node of a tree that parsing returns has the span of its text. Names and literals are single
tokens, so their spans are those of tokens; the span of a call reaches from its name to its
semicolon, that of a program from `fn` to the closing brace. `Program.Fits` collects what this means
for a source: which slice each span has, which span lies in which, and in which order they come.

Main statement: `parse_ok_fits`. Its parts follow a derivation of the tree from bottom to top, over
tokens that stand in the source where they say (`Token.Placed`) one behind the other.
-/

namespace MacroCalls

open Text Terminal

/-- The span covers at least one byte, and only bytes of the text. -/
def Span.Inside (s : Span) (src : Text) : Prop :=
  0 ≤ s.start ∧ s.start < s.stop ∧ s.stop ≤ src.length

/-- The span lies in another. -/
def Span.Within (s t : Span) : Prop := t.start ≤ s.start ∧ s.stop ≤ t.stop

/-- The span and another have no byte in common and come in this order. -/
def Span.Before (s t : Span) : Prop := s.start < t.start ∧ s.stop ≤ t.start ∧ s.stop < t.stop

/-- A name is the macro name that its span covers. -/
structure Name.Fits (n : Name) (src : Text) : Prop where
  inside : n.span.Inside src
  slice_eq : n.span.slice src = n.name
  isMacroName : IsMacroName n.name

/-- A literal is what stands between the quotes of its span. -/
structure Literal.Fits (l : Literal) (src : Text) : Prop where
  inside : l.span.Inside src
  slice_eq : l.span.slice src = inQuotes l.val
  not_mem : quoteMark ∉ l.val

/-- The spans of a call's name and arguments, in this order. -/
def Call.leafSpans (c : Call) : List Span := c.name.span :: c.argList.map Literal.span

/-- A call reaches from its name to a semicolon and contains its parts. -/
structure Call.Fits (c : Call) (src : Text) : Prop where
  inside : c.span.Inside src
  start_eq : c.span.start = c.name.span.start
  semicolon : ascii ";" <:+ c.span.slice src
  name : c.name.Fits src
  hasArgs : c.args = some c.argList
  args : ∀ a ∈ c.argList, a.Fits src
  within : ∀ s ∈ c.leafSpans, s.Within c.span

/-- The calls of a program, gaps left out. -/
def Program.calls (p : Program) : List Call := p.statementList.filterMap id

/-- **A program fits a source**: every node stands in it where its span says. -/
structure Program.Fits (p : Program) (src : Text) : Prop where
  inside : p.span.Inside src
  /-- There is a list of statements, without gaps. -/
  hasStatements : p.statements = some (p.calls.map some)
  fn : ascii "fn" <+: p.span.slice src
  brace : [closeBrace] <:+ p.span.slice src
  blankBefore : IsBlankRun (src.take p.span.start.toNat)
  blankBehind : IsBlankRun (src.drop p.span.stop.toNat)
  calls : ∀ c ∈ p.calls, c.Fits src
  within : ∀ c ∈ p.calls, c.span.Within p.span
  /-- The calls come one behind the other, -/
  callOrder : p.calls.Pairwise fun c d => c.span.Before d.span
  /-- and so do all names and literals. -/
  leafOrder : (p.calls.flatMap Call.leafSpans).Pairwise Span.Before

/-! ### Slices -/

theorem Text.slice_append_slice {t : Text} {lo mid hi : Nat} (h : lo ≤ mid) (h' : mid ≤ hi) :
    t.slice lo mid ++ t.slice mid hi = t.slice lo hi := by
  have hleft : t.slice lo mid = (t.slice lo hi).take (mid - lo) := by
    rw [slice, slice, List.take_drop, List.take_take]
    congr 2
    omega
  have hright : t.slice mid hi = (t.slice lo hi).drop (mid - lo) := by
    rw [slice, slice, List.drop_drop]
    congr 1
    omega
  rw [hleft, hright, List.take_append_drop]

theorem Text.slice_append_drop {t : Text} {i j : Nat} (h : i ≤ j) :
    t.slice i j ++ t.drop j = t.drop i := by
  have hdrop : t.drop j = (t.drop i).drop (j - i) := by
    rw [List.drop_drop]
    congr 1
    omega
  rw [slice, List.drop_take, hdrop, List.take_append_drop]

theorem Span.slice_natCast {src : Text} {lo hi : Nat} (h : lo ≤ hi) (h' : hi ≤ src.length) :
    (Span.mk lo hi).slice src = src.slice lo hi := by
  rw [Span.slice, clamp, clamp]
  congr 1
  · simp only [Int.toNat_natCast]
    omega
  · simp only [Int.toNat_natCast]
    omega

/-! ### Tokens in their source -/

/-- A token that stands in the text where it says. -/
structure Token.Placed (t : Token) (src : Text) : Prop where
  spells : t.kind.Spells t.text
  slice_eq : src.slice t.start t.stop = t.text
  stop_le : t.stop ≤ src.length

namespace Token.Placed

variable {src : Text} {t u : Token}

theorem start_lt_stop (h : t.Placed src) : t.start < t.stop := by
  have := List.length_pos_iff.mpr h.spells.ne_nil
  rw [stop]
  omega

theorem span_slice (h : t.Placed src) : t.span.slice src = t.text := by
  have := h.start_lt_stop
  rw [span, Span.slice_natCast (by omega) h.stop_le, h.slice_eq]

theorem inside (h : t.Placed src) : t.span.Inside src := by
  have := h.start_lt_stop
  have := h.stop_le
  simp only [Span.Inside, span]
  omega

theorem before (h : t.Placed src) (h' : u.Placed src) (hlt : t.stop ≤ u.start) :
    t.span.Before u.span := by
  have := h.start_lt_stop
  have := h'.start_lt_stop
  simp only [Span.Before, span]
  omega

theorem name_fits (h : t.Placed src) (hk : t.kind = .macroName) : t.asName.Fits src := by
  refine ⟨h.inside, h.span_slice, ?_⟩
  have := h.spells
  rwa [hk] at this

theorem literal_fits (h : t.Placed src) (hk : t.kind = .literal) : t.asLiteral.Fits src := by
  obtain ⟨htext, hbody⟩ := text_eq_inQuotes hk h.spells
  exact ⟨h.inside, h.span_slice.trans htext, hbody⟩

/-- What reaches from a token to a later one starts with the first and ends with the second. -/
theorem slice_between (h : t.Placed src) (h' : u.Placed src) (hlt : t.stop ≤ u.start) :
    t.text <+: (Span.mk t.start u.stop).slice src ∧
      u.text <:+ (Span.mk t.start u.stop).slice src := by
  have ht := h.start_lt_stop
  have hu := h'.start_lt_stop
  rw [Span.slice_natCast (by omega) h'.stop_le]
  constructor
  · rw [← slice_append_slice (by omega : t.start ≤ t.stop) (by omega : t.stop ≤ u.stop), h.slice_eq]
    exact List.prefix_append ..
  · have hle : t.start ≤ u.start := by omega
    rw [← slice_append_slice hle (by omega : u.start ≤ u.stop), h'.slice_eq]
    exact List.suffix_append ..

end Token.Placed

/-! ### Derivations over placed tokens -/

/-- Tokens that stand in the text one behind the other. -/
structure Placed (ts : List Token) (src : Text) : Prop where
  each : ∀ t ∈ ts, t.Placed src
  order : ts.Pairwise fun t u => t.stop ≤ u.start

namespace Placed

variable {src : Text} {ts us : List Token}

theorem sublist (h : Placed us src) (hsub : ts.Sublist us) : Placed ts src :=
  ⟨fun t ht => h.each t (hsub.subset ht), h.order.sublist hsub⟩

theorem pairwise_before (h : Placed ts src) : (ts.map Token.span).Pairwise Span.Before := by
  rw [List.pairwise_map]
  exact h.order.imp_of_mem fun ht hu hlt => (h.each _ ht).before (h.each _ hu) hlt

/-- What reaches from a token to a later one starts with the first, ends with the second and
contains those between them. -/
theorem hull {t u : Token} (h : Placed (t :: (ts ++ [u])) src) :
    (Span.mk t.start u.stop).Inside src ∧ t.text <+: (Span.mk t.start u.stop).slice src ∧
      u.text <:+ (Span.mk t.start u.stop).slice src ∧
      ∀ v ∈ t :: ts, t.start ≤ v.start ∧ v.stop ≤ u.stop := by
  obtain ⟨hfirst, hrest⟩ := List.pairwise_cons.mp h.order
  have hlast := (List.pairwise_append.mp hrest).2.2
  have ht := h.each t (by simp)
  have hu := h.each u (by simp)
  have hlt : t.stop ≤ u.start := hfirst u (by simp)
  have htlt := ht.start_lt_stop
  have hult := hu.start_lt_stop
  refine ⟨?_, (ht.slice_between hu hlt).1, (ht.slice_between hu hlt).2, fun v hv => ?_⟩
  · have := hu.stop_le
    simp only [Span.Inside]
    omega
  · rcases List.mem_cons.mp hv with rfl | hv
    · omega
    · have := hfirst v (by simp [hv])
      have := hlast v hv u (by simp)
      omega

/-- All but the last token of a text are placed in it. -/
theorem of_tokens (h : src.tokens = ts ++ us) (hus : us ≠ []) : Placed ts src := by
  obtain ⟨z, us, rfl⟩ := List.exists_cons_of_ne_nil hus
  have htiles := src.tiles_tokens
  rw [h] at htiles
  refine ⟨fun t ht => ?_, (List.pairwise_append.mp htiles.pairwise_stop_le_start).1⟩
  obtain ⟨hslice, hstop⟩ := src.slice_tokens t (by simp [h, ht])
  exact ⟨htiles.spells t ht, hslice, hstop⟩

end Placed

theorem Arguments.eq_map {ts : List Token} {args : List Literal} (h : Arguments ts args) :
    ∃ us : List Token, us.Sublist ts ∧ (∀ u ∈ us, u.kind = .literal) ∧
      args = us.map Token.asLiteral := by
  induction h with
  | nil => exact ⟨[], .slnil, by simp, rfl⟩
  | @last t ht => exact ⟨[t], .refl _, by simpa using ht, rfl⟩
  | @cons t c ts args ht hc h ih =>
    obtain ⟨us, hsub, hus, rfl⟩ := ih
    exact ⟨t :: us, .cons_cons t (.cons c hsub), by simpa using ⟨ht, hus⟩, rfl⟩

/-- A call whose tokens are placed fits, and its leaves are some of the tokens. -/
theorem Arguments.call_fits {src : Text} {n l r s : Token} {ts : List Token} {args : List Literal}
    (h : Arguments ts args) (hn : n.kind = .macroName) (hs : (mark 0x3B).admits s = true)
    (hp : Placed (n :: l :: (ts ++ [r, s])) src) :
    let c : Call := ⟨n.asName, some args, ⟨n.start, s.stop⟩⟩
    c.Fits src ∧ c.leafSpans.Sublist ((n :: ts).map Token.span) := by
  intro c
  obtain ⟨us, hsub, hus, rfl⟩ := h.eq_map
  have hleaf : c.leafSpans = (n :: us).map Token.span := by
    simp [c, Call.leafSpans, Call.argList, Token.asName, Function.comp_def, Token.asLiteral]
  -- the name, the arguments and the semicolon, one behind the other
  have hparts : Placed (n :: (us ++ [s])) src :=
    hp.sublist <| .cons_cons n <| .cons l <| hsub.append <| .cons r <| .refl _
  have hleaves := hparts.sublist (.cons_cons n (List.sublist_append_left us [s]))
  obtain ⟨hinside, -, hsemi, hwithin⟩ := hparts.hull
  rw [(admits_mark.mp hs).2] at hsemi
  refine ⟨⟨hinside, rfl, hsemi, (hleaves.each n (by simp)).name_fits hn, rfl, ?_, ?_⟩, ?_⟩
  · intro a ha
    obtain ⟨u, hu, rfl⟩ := List.mem_map.mp ha
    exact (hleaves.each u (by simp [hu])).literal_fits (hus u hu)
  · rw [hleaf]
    intro w hw
    obtain ⟨u, hu, rfl⟩ := List.mem_map.mp hw
    have := hwithin u hu
    simp only [Span.Within, Token.span, c]
    omega
  · rw [hleaf]
    exact (hsub.cons_cons n).map _

/-- Calls whose tokens are placed fit and come one behind the other. -/
theorem Statements.calls_fit {src : Text} {ts : List Token} {calls : List Call}
    (h : Statements ts calls) (hp : Placed ts src) :
    (∀ c ∈ calls, c.Fits src ∧ ∃ n ∈ ts, ∃ s ∈ ts, c.span = ⟨n.start, s.stop⟩) ∧
      calls.Pairwise (fun c d => c.span.Before d.span) ∧
      (calls.flatMap Call.leafSpans).Sublist (ts.map Token.span) := by
  induction h with
  | nil => simp
  | @cons n l r s ts us args calls hn hl hargs hr hs h ih =>
    have hsplit : n :: l :: (ts ++ r :: s :: us) = n :: l :: (ts ++ [r, s]) ++ us := by simp
    rw [hsplit] at hp ⊢
    obtain ⟨-, -, hcross⟩ := List.pairwise_append.mp hp.order
    obtain ⟨hfits, hleaf⟩ :=
      hargs.call_fits hn hs (hp.sublist (List.sublist_append_left ..))
    obtain ⟨hcalls, horder, hleaves⟩ := ih (hp.sublist (List.sublist_append_right ..))
    refine ⟨?_, List.pairwise_cons.mpr ⟨?_, horder⟩, ?_⟩
    · intro c hc
      rcases List.mem_cons.mp hc with rfl | hc
      · exact ⟨hfits, n, by simp, s, by simp, rfl⟩
      · obtain ⟨hc, n', hn', s', hs', hspan⟩ := hcalls c hc
        exact ⟨hc, n', by simp [hn'], s', by simp [hs'], hspan⟩
    · intro c hc
      obtain ⟨hc, n', hn', s', hs', hspan⟩ := hcalls c hc
      have hlt := hcross s (by simp) n' hn'
      have hfirst := hfits.inside
      have hsecond := hc.inside
      simp only [Span.Inside, Span.Before, hspan] at hfirst hsecond ⊢
      omega
    · rw [List.flatMap_cons, List.map_append]
      refine (hleaf.trans (List.Sublist.map _ ?_)).append hleaves
      exact .cons_cons n (.cons l (List.sublist_append_left ..))

theorem isBlankRun_take_of_tokens {src : Text} {t : Token} {ts : List Token}
    (h : src.tokens = t :: ts) : IsBlankRun (src.take t.start) := by
  have htiles := src.tiles_tokens
  rw [h] at htiles
  obtain ⟨g, rest, rfl, hg, hstart⟩ := htiles.exists_blank_front
  rw [hstart, Nat.zero_add, List.take_left]
  exact hg

theorem isBlankRun_drop_of_tokens {src : Text} {t z : Token} {ts : List Token}
    (h : src.tokens = ts ++ [t, z]) (hz : z.kind = .endOfInput) :
    IsBlankRun (src.drop t.stop) := by
  have htiles := src.tiles_tokens
  rw [h] at htiles
  obtain ⟨a, b, rfl, hlen, htiles⟩ := htiles.exists_behind (by simp)
  rw [← hlen, Nat.zero_add, List.drop_left]
  exact htiles.isBlankRun_of_endOfInput hz

/-- **A derived tree fits** the text of its tokens. -/
theorem Derives.fits {src : Text} {ts : List Token} {p : Program} (h : Derives ts p)
    (htok : src.tokens = ts) : p.Fits src := by
  obtain @⟨f, m, l, r, b, e, z, ts, calls, hf, hm, hl, hr, hb, h, he, hz⟩ := h
  have hlast : src.tokens = f :: m :: l :: r :: b :: (ts ++ [e]) ++ [z] := by simp [htok]
  have hend : src.tokens = (f :: m :: l :: r :: b :: ts) ++ [e, z] := htok
  have hall := Placed.of_tokens hlast (by simp)
  have hparts : Placed (f :: (ts ++ [e])) src := hall.sublist <|
    .cons_cons f <| .cons m <| .cons l <| .cons r <| .cons b <| .refl _
  have hts : Placed ts src := hparts.sublist (.cons f (List.sublist_append_left ..))
  obtain ⟨hinside, hfn, hbrace, hwithin⟩ := hparts.hull
  rw [(admits_fn.mp hf).2] at hfn
  rw [(admits_mark.mp he).2] at hbrace
  obtain ⟨hcalls, horder, hleaves⟩ := h.calls_fit hts
  have hprogram : (⟨some (calls.map some), ⟨f.start, e.stop⟩⟩ : Program).calls = calls := by
    simp [Program.calls, Program.statementList]
  refine ⟨hinside, ?_, hfn, hbrace, isBlankRun_take_of_tokens htok,
    isBlankRun_drop_of_tokens hend hz, ?_, ?_, ?_, ?_⟩
  · rw [hprogram]
  · rw [hprogram]
    exact fun c hc => (hcalls c hc).1
  · rw [hprogram]
    intro c hc
    obtain ⟨-, n, hn, s, hs, hspan⟩ := hcalls c hc
    have := hwithin n (by simp [hn])
    have := hwithin s (by simp [hs])
    rw [hspan]
    simp only [Span.Within]
    omega
  · rw [hprogram]
    exact horder
  · rw [hprogram]
    exact hts.pairwise_before.sublist hleaves

/-- **Parsed trees fit their source.** -/
theorem parse_ok_fits (src : Text) (p : Program) (h : parse src = .ok p) : p.Fits src :=
  (parse_eq_ok_iff_derives.mp h).fits rfl

/-- Two calls with blanks around them, the second with a comma in a literal. -/
theorem parse_two_calls_fits :
    ∃ p, parse (ascii " fn main()\x7ba!();b!( \",\");\x7d\n") = .ok p ∧ p.calls.length = 2 ∧
      p.Fits (ascii " fn main()\x7ba!();b!( \",\");\x7d\n") := by
  have h : parse (ascii " fn main()\x7ba!();b!( \",\");\x7d\n") = .ok ⟨some
      [some ⟨⟨⟨11, 13⟩, ascii "a!"⟩, some [], ⟨11, 16⟩⟩,
        some ⟨⟨⟨16, 18⟩, ascii "b!"⟩, some [⟨⟨20, 23⟩, ascii ","⟩], ⟨16, 25⟩⟩], ⟨1, 26⟩⟩ := by
    decide +kernel
  exact ⟨_, h, rfl, parse_ok_fits _ _ h⟩

end MacroCalls
