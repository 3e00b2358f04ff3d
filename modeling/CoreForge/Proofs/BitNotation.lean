import CoreForge.Bits.Span
import CoreForge.Proofs.Numerals
/-!
# The notation of bit spans

The texts of a range, apart from any way to read them: `Bounds` without brackets and `Spans` with
or without them. Exactly these are read (`BitSpan.ofText?_eq_some_iff`), and a span with at least
one bit, all of whose bits have a 32-bit position, is read back from its notation
(`BitSpan.ofString?_render`). `BitSpan.ofString?_spans` puts the two together.
-/

namespace CoreForge

open CoreForge.Text

namespace Number

/-! ## Decimal digits -/

theorem digitValue?_of_isDigit {c : Char} (h : c.isDigit = true) : digitValue? c = some (c.toNat - '0'.toNat) := by
  simp [digitValue?, h]

theorem digit_lt_ten {c : Char} (h : c.isDigit = true) : c.toNat - '0'.toNat < 10 := by
  have h9 : '9'.toNat = 57 := rfl
  have h0 : '0'.toNat = 48 := rfl
  rw [Char.isDigit_iff_toNat] at h
  omega

/-- Digits read one after the other have their positional value. -/
theorem digitsValueFrom_ten (ds : List Char) (h : ∀ c ∈ ds, c.isDigit = true) (n : Nat) :
    digitsValueFrom 10 n ds = some (Nat.ofDigitChars 10 ds n) := by
  induction ds generalizing n with
  | nil => simp [digitsValueFrom]
  | cons c ds ih =>
    have hc := h c (by simp)
    simp only [digitsValueFrom, digitValue?_of_isDigit hc, if_pos (digit_lt_ten hc)]
    rw [ih (fun d hd => h d (by simp [hd])), Nat.ofDigitChars_cons, Nat.mul_comm]

theorem isDigit_toDigits (n : Nat) : ∀ c ∈ Nat.toDigits 10 n, c.isDigit = true :=
  fun _ hc => Nat.isDigit_of_mem_toDigits (by decide) (by decide) hc

theorem denotes_toDigits (n : Nat) : Denotes 10 (Nat.toDigits 10 n) n := by
  rw [← digits?_eq_some_iff (by decide), digits?, if_neg Nat.toDigits_ne_nil,
    digitsValueFrom_ten _ (isDigit_toDigits n), Nat.ofDigitChars_ten_toDigits]

theorem digitsWord?_toDigits {n : Nat} (h : n ≤ max64) : digitsWord? 10 (Nat.toDigits 10 n) = some (clamp64 n) := by
  rw [digitsWord?_eq_some_iff (by decide), toNat_clamp64, Nat.min_eq_left h]
  exact denotes_toDigits n

/-- A number in decimal digits is read back with what stands behind it. -/
theorem toDigits_append_inj {m n : Nat} {rest rest' : List Char} (hrest : Closes rest) (hrest' : Closes rest')
    (h : Nat.toDigits 10 m ++ rest = Nat.toDigits 10 n ++ rest') : m = n ∧ rest = rest' := by
  obtain ⟨hdigits, hbehind⟩ := hrest.takeWhile_dropWhile (fun _ => isAlphanum_of_decimal) (isDigit_toDigits m)
  obtain ⟨hdigits', hbehind'⟩ := hrest'.takeWhile_dropWhile (fun _ => isAlphanum_of_decimal) (isDigit_toDigits n)
  rw [h, hdigits'] at hdigits
  rw [h, hbehind'] at hbehind
  have hn := denotes_toDigits n
  rw [hdigits] at hn
  exact ⟨(denotes_toDigits m).unique (by decide) hn, hbehind.symm⟩

theorem spaced_toDigits (n : Nat) : Spaced (Nat.toDigits 10 n) n := (Numeral.plain (denotes_toDigits n)).spaced

end Number

namespace BitSpan

open CoreForge.Number

/-! ## The language -/

/-- The text is the bounds of a range: two numbers with a colon between them, or one number for
both. -/
inductive Bounds : List Char → Nat → Nat → Prop
  | bit {cs n} : Spaced cs n → Bounds cs n n
  | bits {cs ds m n} : Spaced cs m → Spaced ds n → Bounds (cs ++ ':' :: ds) m n

/-- The text is the bounds of a range, within brackets or without, and white space. -/
inductive Spans : List Char → Nat → Nat → Prop
  | bare {before inner after m n} : (∀ c ∈ before, isSpace c = true) → (∀ c ∈ after, isSpace c = true) →
      Bounds inner m n → Spans (before ++ (inner ++ after)) m n
  | bracketed {before inner after m n} : (∀ c ∈ before, isSpace c = true) → (∀ c ∈ after, isSpace c = true) →
      Bounds inner m n → Spans (before ++ (('[' :: inner ++ [']']) ++ after)) m n

section Language
variable {m n : Nat} {cs : List Char}

theorem not_mem_of_spaced {c : Char} (hgap : isGap c = false) (hbody : c.isAlphanum = false ∧ c ≠ '\x27')
    (h : Spaced cs n) : c ∉ cs := by
  obtain ⟨before, body, after, rfl, hbefore, hafter, hnumeral⟩ := h
  intro hc
  rw [List.mem_append, List.mem_append] at hc
  rcases hc with hc | hc | hc
  · rw [hbefore c hc] at hgap
    cases hgap
  · rcases hnumeral.chars c hc with halnum | hquote
    · rw [hbody.1] at halnum
      cases halnum
    · exact hbody.2 hquote
  · rw [hafter c hc] at hgap
    cases hgap

theorem Bounds.no_bracket (h : Bounds cs m n) : '[' ∉ cs ∧ ']' ∉ cs := by
  have hopen : ∀ {ds k}, Spaced ds k → '[' ∉ ds := not_mem_of_spaced (by rfl) (by decide)
  have hclose : ∀ {ds k}, Spaced ds k → ']' ∉ ds := not_mem_of_spaced (by rfl) (by decide)
  cases h with
  | bit hn => exact ⟨hopen hn, hclose hn⟩
  | bits hm hn => simp [hopen hm, hclose hm, hopen hn, hclose hn]

theorem not_bracket_of_isSpace (h : ∀ c ∈ cs, isSpace c = true) : '[' ∉ cs ∧ ']' ∉ cs := by
  constructor
  · intro hc
    exact absurd (h _ hc) (by decide)
  · intro hc
    exact absurd (h _ hc) (by decide)

/-- A range has both brackets or none. -/
theorem Spans.brackets (h : Spans cs m n) : '[' ∈ cs ↔ ']' ∈ cs := by
  cases h with
  | bare hbefore hafter hinner =>
    simp [not_bracket_of_isSpace hbefore, not_bracket_of_isSpace hafter, hinner.no_bracket]
  | bracketed => simp

theorem isSpace_of_gaps (h : ∀ c ∈ cs, isGap c = true) : ∀ c ∈ cs, isSpace c = true :=
  fun c hc => isSpace_of_isGap (h c hc)

theorem trim_numeral {body : List Char} (h : Numeral body n) : trim body = body := by
  rw [trim_eq_self_iff]
  constructor
  · intro c hc
    exact h.not_isSpace c (List.mem_of_mem_head? hc)
  · intro c hc
    exact h.not_isSpace c (List.mem_of_mem_getLast? hc)

/-- There is no white space outside two numbers. -/
theorem trim_numerals {body body' : List Char} (h : Numeral body m) (between : List Char) (h' : Numeral body' n) :
    trim (body ++ (between ++ body')) = body ++ (between ++ body') := by
  obtain ⟨c, cs, rfl⟩ := h.exists_cons
  obtain ⟨d, ds, rfl⟩ := h'.exists_cons
  rw [trim_eq_self_iff]
  constructor
  · intro e he
    cases he
    exact h.not_isSpace c (by simp)
  · intro e he
    rw [← List.append_assoc, List.getLast?_append_of_ne_nil _ (by simp)] at he
    exact h'.not_isSpace e (List.mem_of_mem_getLast? he)

/-- Bounds stay bounds without the white space around them. -/
theorem Bounds.trim (h : Bounds cs m n) : Bounds (trim cs) m n := by
  cases h with
  | bit hn =>
    obtain ⟨before, body, after, rfl, hbefore, hafter, hbody⟩ := hn
    rw [trim_pad body (isSpace_of_gaps hbefore) (isSpace_of_gaps hafter), trim_numeral hbody]
    exact .bit hbody.spaced
  | bits hm hn =>
    obtain ⟨before, body, after, rfl, hbefore, hafter, hbody⟩ := hm
    obtain ⟨before', body', after', rfl, hbefore', hafter', hbody'⟩ := hn
    have hpad := trim_pad (body ++ ((after ++ ':' :: before') ++ body')) (isSpace_of_gaps hbefore)
      (isSpace_of_gaps hafter')
    rw [trim_numerals hbody _ hbody'] at hpad
    simp only [List.append_assoc, List.cons_append] at hpad ⊢
    rw [hpad, ← List.append_assoc]
    exact .bits ⟨[], body, after, rfl, by simp, hafter, hbody⟩ ⟨before', body', [], by simp, hbefore', by simp, hbody'⟩

end Language

/-! ## What is read -/

theorem range?_eq_some_iff {cs : List Char} {s : BitSpan} :
    range? cs = some (s, []) ↔ ∃ a b : UInt64, Bounds cs a.toNat b.toNat ∧ s = between a b := by
  unfold range?
  constructor
  · intro h
    rw [Option.bind_eq_bind, Option.bind_eq_some_iff] at h
    obtain ⟨⟨a, rest⟩, hfirst, h⟩ := h
    obtain ⟨first, rfl, ha⟩ := spaced_of_spacedLiteral? hfirst
    dsimp only at h
    split at h
    · rename_i b behind hsecond
      cases h
      obtain ⟨ds, hcolon, hsecond⟩ := Option.bind_eq_some_iff.1 hsecond
      obtain ⟨second, hds, hb⟩ := spaced_of_spacedLiteral? hsecond
      obtain ⟨gaps, hrest, hgaps⟩ := exists_gaps rest
      obtain ⟨gaps', hds', hgaps'⟩ := exists_gaps ds
      rw [afterStart?_eq_some_iff] at hcolon
      refine ⟨a, b, ?_, rfl⟩
      have hm : Spaced ([] ++ (first ++ gaps)) a.toNat := ha.pad (by simp) hgaps
      have hn : Spaced (gaps' ++ (second ++ [])) b.toNat := hb.pad hgaps' (by simp)
      rw [hrest, hcolon, hds', hds]
      simpa using Bounds.bits hm hn
    · cases h
      rw [List.append_nil]
      exact ⟨a, a, .bit ha, rfl⟩
  · rintro ⟨a, b, hbounds, rfl⟩
    generalize ha : a.toNat = m at hbounds
    generalize hb : b.toNat = n at hbounds
    cases hbounds with
    | bit hn =>
      have hfirst := spacedLiteral?_append hn (hb ▸ toNat_le_max64 b) closes_nil
      rw [List.append_nil, ← ha, clamp64_toNat] at hfirst
      obtain rfl : a = b := UInt64.toNat.inj (ha.trans hb.symm)
      rw [hfirst]
      rfl
    | @bits _ ds _ _ hm hn =>
      have hcolon : Closes (':' :: ds) := closes_cons (by rfl) (by decide)
      have hfirst := spacedLiteral?_append hm (ha ▸ toNat_le_max64 a) hcolon
      have hsecond := spacedLiteral?_append hn (hb ▸ toNat_le_max64 b) closes_nil
      rw [← ha, clamp64_toNat] at hfirst
      rw [List.append_nil, ← hb, clamp64_toNat] at hsecond
      have hgaps : dropGaps (':' :: ds) = ':' :: ds := rfl
      have hbehind : afterStart? [':'] (':' :: ds) = some ds := rfl
      simp only [hfirst, hgaps, hbehind, Option.bind_eq_bind, Option.bind_some, spacedLiteral?_dropGaps, hsecond]
      rfl

/-- Without an opening bracket at its start a text is kept as it is. -/
theorem unbracket?_of_not_mem {cs : List Char} (h : '[' ∉ cs) : unbracket? cs = some cs := by
  unfold unbracket?
  split
  · simp at h
  · rfl

theorem unbracket?_brackets (cs : List Char) : unbracket? ('[' :: cs ++ [']']) = some cs := beforeEnd?_append cs [']']

theorem unbracket?_eq_some {cs inner : List Char} (h : unbracket? cs = some inner) :
    cs = '[' :: inner ++ [']'] ∨ cs = inner := by
  unfold unbracket? at h
  split at h
  · rw [beforeEnd?_eq_some h]
    exact .inl rfl
  · cases h
    exact .inr rfl

theorem trim_brackets (cs : List Char) : trim ('[' :: cs ++ [']']) = '[' :: cs ++ [']'] := by
  rw [trim_eq_self_iff]
  constructor
  · rintro c ⟨⟩
    rfl
  · intro c hc
    rw [List.getLast?_concat] at hc
    cases hc
    rfl

/-- The texts of ranges, and no others, are read. -/
theorem ofText?_eq_some_iff {cs : List Char} {s : BitSpan} :
    ofText? cs = some s ↔ ∃ a b : UInt64, Spans cs a.toNat b.toNat ∧ s = between a b := by
  have hwhole : ofText? cs = some s ↔ ∃ inner, unbracket? (trim cs) = some inner ∧ range? inner = some (s, []) := by
    unfold ofText?
    rw [Option.bind_eq_bind, Option.bind_eq_some_iff]
    refine exists_congr fun inner => and_congr_right fun _ => ?_
    constructor
    · intro h
      split at h
      · rename_i span hrange
        cases h
        exact hrange
      · cases h
    · intro h
      rw [h]
  rw [hwhole]
  constructor
  · rintro ⟨inner, hinner, hrange⟩
    obtain ⟨a, b, hbounds, rfl⟩ := range?_eq_some_iff.1 hrange
    obtain ⟨before, after, hcs, hbefore, hafter⟩ := exists_pad cs
    refine ⟨a, b, ?_, rfl⟩
    rw [hcs]
    rcases unbracket?_eq_some hinner with htrim | htrim
    · rw [htrim]
      exact .bracketed hbefore hafter hbounds
    · rw [htrim]
      exact .bare hbefore hafter hbounds
  · rintro ⟨a, b, hspans, rfl⟩
    generalize ha : a.toNat = m at hspans
    generalize hb : b.toNat = n at hspans
    cases hspans with
    | @bare _ inner _ _ _ hbefore hafter hbounds =>
      subst ha hb
      refine ⟨trim inner, ?_, range?_eq_some_iff.2 ⟨a, b, hbounds.trim, rfl⟩⟩
      rw [trim_pad inner hbefore hafter]
      exact unbracket?_of_not_mem hbounds.trim.no_bracket.1
    | @bracketed _ inner _ _ _ hbefore hafter hbounds =>
      subst ha hb
      refine ⟨inner, ?_, range?_eq_some_iff.2 ⟨a, b, hbounds, rfl⟩⟩
      rw [trim_pad _ hbefore hafter, trim_brackets]
      exact unbracket?_brackets inner

/-- What is read from the text of a range with 64-bit bounds. -/
theorem ofString?_of_spans {t : String} {m n : Nat} (h : Spans t.toList m n) (hm : m ≤ max64) (hn : n ≤ max64) :
    ofString? t = some (between (clamp64 m) (clamp64 n)) := by
  refine ofText?_eq_some_iff.2 ⟨clamp64 m, clamp64 n, ?_, rfl⟩
  rw [toNat_clamp64, toNat_clamp64, Nat.min_eq_left hm, Nat.min_eq_left hn]
  exact h

theorem toNat_between {m n : Nat} (hm : m ≤ max32) (hn : n ≤ max32) :
    (between (clamp64 m) (clamp64 n)).offset.toNat = min m n ∧
      (between (clamp64 m) (clamp64 n)).width.toNat = min (max m n - min m n + 1) max32 := by
  have hlt := max32_lt_max64
  have hm64 : (clamp64 m).toNat = m := by rw [toNat_clamp64, Nat.min_eq_left (by omega)]
  have hn64 : (clamp64 n).toNat = n := by rw [toNat_clamp64, Nat.min_eq_left (by omega)]
  unfold between
  rw [toNat_positions, hm64, hn64, if_neg (by omega)]
  constructor
  · rw [toNat_clamp32]
    omega
  · rw [toNat_clamp32]

theorem between_comm (a b : UInt64) : between a b = between b a := by
  rw [between, between, Nat.min_comm, positions_comm]

/-! ## The notation reads back -/

section Rendering
variable {s : BitSpan} {hi : Nat}

/-- The bound that stands first in the notation of a span, or alone. -/
def high (s : BitSpan) : Nat := if s.width ≤ 1 then s.offset.toNat else s.msb.toNat

theorem spans_render (s : BitSpan) : Spans s.render.toList s.high s.offset.toNat := by
  have hbrackets : ∀ {inner m n}, Bounds inner m n → Spans ('[' :: inner ++ [']']) m n := by
    intro inner m n h
    simpa using @Spans.bracketed [] inner [] m n (by simp) (by simp) h
  unfold render high
  split
  · simpa using hbrackets (.bit (spaced_toDigits s.offset.toNat))
  · simpa using hbrackets (.bits (spaced_toDigits s.msb.toNat) (spaced_toDigits s.offset.toNat))

theorem high_eq (hw : 0 < s.width.toNat) (hfit : s.offset.toNat + s.width.toNat ≤ max32 + 1) :
    s.high + 1 = s.offset.toNat + s.width.toNat := by
  unfold high
  split
  · rename_i hone
    rw [UInt32.le_iff_toNat_le, UInt32.toNat_one] at hone
    omega
  · rw [msb, toNat_clamp32]
    omega

/-- A span is the span between its first and its last bit. -/
theorem between_eq_self (hw : 0 < s.width.toNat) (hhi : hi + 1 = s.offset.toNat + s.width.toNat) (hfit : hi ≤ max64) :
    between (clamp64 hi) (clamp64 s.offset.toNat) = s := by
  have hlo : s.offset.toNat ≤ hi := by omega
  have hwidth : hi - s.offset.toNat + 1 = s.width.toNat := by omega
  have hmax := toNat_le_max32 s.width
  have hlt := max32_lt_max64
  unfold between
  rw [toNat_positions, toNat_clamp64, toNat_clamp64_word32, Nat.min_eq_left hfit, if_neg (by omega)]
  simp only [Nat.min_eq_right hlo, Nat.max_eq_left hlo, hwidth, clamp32_toNat]

/-- A span with at least one bit, all at 32-bit positions, is read back from its notation. -/
theorem ofString?_render (hw : 0 < s.width.toNat) (hfit : s.offset.toNat + s.width.toNat ≤ max32 + 1) :
    ofString? s.render = some s := by
  have hlt := max32_lt_max64
  have hhigh := high_eq hw hfit
  rw [ofString?_of_spans (spans_render s) (by omega) (by omega), between_eq_self hw hhigh (by omega)]

end Rendering

/-- Spans whose bits all have 32-bit positions, at least one of them, are read back from their
notation. The text of a range is read as the span between its bounds, in either order and with or
without brackets, and that span is read back too. No other text is read. -/
theorem ofString?_spans :
    (∀ s : BitSpan, 1 ≤ s.width.toNat → s.offset.toNat + s.width.toNat - 1 ≤ 2 ^ 32 - 1 →
      ofString? s.render = some s) ∧
    (∀ t m n, Spans t.toList m n → m < 2 ^ 32 → n < 2 ^ 32 → ∃ s, ofString? t = some s ∧
      s.offset.toNat = min m n ∧ s.width.toNat = min (max m n - min m n + 1) (2 ^ 32 - 1) ∧ 1 ≤ s.width.toNat ∧
      ofString? s.render = some s) ∧
    (∀ t t' m n, Spans t.toList m n → Spans t'.toList m n ∨ Spans t'.toList n m → m < 2 ^ 32 → n < 2 ^ 32 →
      ofString? t' = ofString? t) ∧
    (∀ t, (∃ s, ofString? t = some s) ↔ ∃ m < 2 ^ 64, ∃ n < 2 ^ 64, Spans t.toList m n) ∧
    ∀ t : String, ¬ ('[' ∈ t.toList ↔ ']' ∈ t.toList) → ofString? t = none := by
  have h32 : max32 = 2 ^ 32 - 1 := rfl
  have h64 : max64 = 2 ^ 64 - 1 := rfl
  refine ⟨?_, ?_, ?_, ?_, ?_⟩
  · intro s hw hfit
    exact ofString?_render hw (by omega)
  · intro t m n hspans hm hn
    obtain ⟨hoffset, hwidth⟩ := toNat_between (show m ≤ max32 by omega) (show n ≤ max32 by omega)
    refine ⟨_, ofString?_of_spans hspans (by omega) (by omega), hoffset, hwidth, by omega, ?_⟩
    exact ofString?_render (by omega) (by omega)
  · intro t t' m n hspans hspans' hm hn
    rw [ofString?_of_spans hspans (by omega) (by omega)]
    rcases hspans' with hsame | hswapped
    · exact ofString?_of_spans hsame (by omega) (by omega)
    · rw [between_comm]
      exact ofString?_of_spans hswapped (by omega) (by omega)
  · intro t
    constructor
    · rintro ⟨s, hs⟩
      obtain ⟨a, b, hspans, -⟩ := ofText?_eq_some_iff.1 hs
      exact ⟨_, a.toNat_lt, _, b.toNat_lt, hspans⟩
    · rintro ⟨m, hm, n, hn, hspans⟩
      exact ⟨_, ofString?_of_spans hspans (by omega) (by omega)⟩
  · intro t honly
    rw [Option.eq_none_iff_forall_ne_some]
    intro s hs
    obtain ⟨a, b, hspans, -⟩ := ofText?_eq_some_iff.1 hs
    exact honly hspans.brackets

/-- The widest range has one bit less than the positions between its bounds. -/
theorem ofString?_spans_widest :
    ofString? (BitSpan.mk 4 4).render = some ⟨4, 4⟩ ∧
    (∃ s, ofString? "[0 : 4294967295]" = some s ∧ s.offset.toNat = 0 ∧ s.width.toNat = 2 ^ 32 - 1 ∧
      ofString? s.render = some s) ∧
    ofString? " 4294967295:0" = ofString? "[0 : 4294967295]" ∧
    (∃ s, ofString? " 4294967295:0" = some s) ∧
    ofString? "[7:4" = none := by
  obtain ⟨hrender, hvalue, hsame, hread, hbracket⟩ := ofString?_spans
  have hzero : Spaced ['0'] 0 := spaced_toDigits 0
  have hlast : Spaced ['4', '2', '9', '4', '9', '6', '7', '2', '9', '5'] (2 ^ 32 - 1) :=
    (Numeral.plain ((digits?_eq_some_iff (by decide)).1 (by decide +kernel))).spaced
  have hgap : ∀ c ∈ [' '], isGap c = true := by simp [isGap]
  have hbefore : Spaced ([' '] ++ (_ ++ [])) (2 ^ 32 - 1) := hlast.pad hgap (by simp)
  have hafter : Spaced ([] ++ (['0'] ++ [' '])) 0 := hzero.pad (by simp) hgap
  have hclosed : Spans "[0 : 4294967295]".toList 0 (2 ^ 32 - 1) :=
    @Spans.bracketed [] _ [] _ _ (by simp) (by simp) (.bits hafter hbefore)
  have hopen : Spans " 4294967295:0".toList (2 ^ 32 - 1) 0 :=
    @Spans.bare [' '] _ [] _ _ (isSpace_of_gaps hgap) (by simp) (.bits hlast hzero)
  refine ⟨hrender _ (by decide) (by decide), ?_, hsame _ _ _ _ hclosed (.inr hopen) (by decide) (by decide),
    (hread _).2 ⟨_, by decide, _, by decide, hopen⟩, hbracket _ (by decide)⟩
  obtain ⟨s, hs, hoffset, hwidth, -, hback⟩ := hvalue _ _ _ hclosed (by decide) (by decide)
  exact ⟨s, hs, hoffset, hwidth, hback⟩

end BitSpan

end CoreForge
