import Mathlib.Data.Nat.Digits.Defs
import CoreForge.Proofs.Letters
import CoreForge.Proofs.Searching
import CoreForge.Proofs.Words
/-!
# Numerals

The language of numbers, apart from any way to read it: `Numeral`. The spellings are tried in an
order, but a text has the marker of one of them at most (`Opened.unique`), and decimal digits have
none. So what is read is a numeral (`numeral_of_literal?`), a numeral is read as a whole unless
something behind it continues it (`literal?_append`), and a text is a number exactly when it is a
numeral, with gaps around it, for a number of 64 bits (`ofString?_exact`).
-/

namespace CoreForge.Number

open CoreForge.Text

/-! ## Digits -/

/-- The character is the digit for a value in a base, in either case. -/
def IsDigit (base : Nat) (c : Char) (d : Nat) : Prop := d < base ∧ c.toLower = Nat.digitChar d

theorem digitValue?_digitChar : ∀ d < 16, digitValue? (Nat.digitChar d) = some d := by decide

theorem digitChar_of_digitValue? : ∀ n < 128, ∀ d ∈ digitValue? (Char.ofNat n), IsDigit 16 (Char.ofNat n) d := by
  unfold IsDigit
  decide

theorem toNat_lt_of_digitValue? {c : Char} {d : Nat} (h : digitValue? c = some d) : c.toNat < 128 := by
  unfold digitValue? at h
  split at h
  · rename_i hdigit
    rw [isDigit_iff] at hdigit
    omega
  · split at h
    · rename_i hsmall
      have hle : c.toNat ≤ 'f'.toNat := hsmall.2
      exact Nat.lt_of_le_of_lt hle (by decide)
    · split at h
      · rename_i hcapital
        have hle : c.toNat ≤ 'F'.toNat := hcapital.2
        exact Nat.lt_of_le_of_lt hle (by decide)
      · cases h

theorem digitValue?_eq_some_iff {c : Char} {d : Nat} : digitValue? c = some d ↔ IsDigit 16 c d := by
  constructor
  · intro h
    have hdigit := digitChar_of_digitValue? c.toNat (toNat_lt_of_digitValue? h) d
    rw [Char.ofNat_toNat] at hdigit
    exact hdigit h
  · rintro ⟨hd, hc⟩
    rw [← digitValue?_toLower, hc]
    exact digitValue?_digitChar d hd

theorem IsDigit.of_le {base base' : Nat} (hle : base ≤ base') {c : Char} {d : Nat} (h : IsDigit base c d) :
    IsDigit base' c d :=
  ⟨Nat.lt_of_lt_of_le h.1 hle, h.2⟩

/-- Digits of a base, at least one and the most significant one first, denote a number. -/
structure Denotes (base : Nat) (cs : List Char) (n : Nat) : Prop where
  ne_nil : cs ≠ []
  value : ∃ ds, List.Forall₂ (IsDigit base) cs ds ∧ n = Nat.ofDigits base ds.reverse

section Digits
variable {base n : Nat} {cs : List Char}

theorem digitsValueFrom_eq_some_iff (hbase : base ≤ 16) (m : Nat) :
    digitsValueFrom base m cs = some n ↔
      ∃ ds, List.Forall₂ (IsDigit base) cs ds ∧ n = m * base ^ ds.length + Nat.ofDigits base ds.reverse := by
  induction cs generalizing m with
  | nil => simp [digitsValueFrom, eq_comm]
  | cons c cs ih =>
    -- The first digit of the rest adds to what is read already.
    have hshift : ∀ d (ds : List Nat), (m * base + d) * base ^ ds.length + Nat.ofDigits base ds.reverse =
        m * base ^ (d :: ds).length + Nat.ofDigits base (d :: ds).reverse := by
      intro d ds
      rw [List.reverse_cons, Nat.ofDigits_append, Nat.ofDigits_singleton, List.length_reverse, List.length_cons,
        pow_succ]
      ring
    rw [digitsValueFrom]
    constructor
    · intro h
      split at h
      · rename_i d hd
        split at h
        · rename_i hlt
          obtain ⟨ds, hds, rfl⟩ := (ih _).1 h
          exact ⟨d :: ds, .cons ⟨hlt, (digitValue?_eq_some_iff.1 hd).2⟩ hds, hshift d ds⟩
        · cases h
      · cases h
    · rintro ⟨ds, hds, rfl⟩
      cases hds with
      | @cons _ d _ ds hd hds =>
        rw [digitValue?_eq_some_iff.2 (hd.of_le hbase)]
        simp only [if_pos hd.1]
        exact (ih _).2 ⟨ds, hds, (hshift d ds).symm⟩

theorem digits?_eq_some_iff (hbase : base ≤ 16) : digits? base cs = some n ↔ Denotes base cs n := by
  unfold digits?
  by_cases hnil : cs = []
  · rw [if_pos hnil]
    refine iff_of_false (by simp) ?_
    intro h
    exact h.ne_nil hnil
  · rw [if_neg hnil, digitsValueFrom_eq_some_iff hbase]
    simp only [Nat.zero_mul, Nat.zero_add]
    constructor
    · exact fun h => ⟨hnil, h⟩
    · exact fun h => h.value

theorem fit64?_eq_some_iff {w : UInt64} : fit64? n = some w ↔ n = w.toNat := by
  unfold fit64?
  constructor
  · intro h
    split at h
    · rename_i hfit
      cases h
      rw [toNat_clamp64, Nat.min_eq_left hfit]
    · cases h
  · rintro rfl
    rw [if_pos (toNat_le_max64 w), clamp64_toNat]

theorem digitsWord?_eq_some_iff (hbase : base ≤ 16) {w : UInt64} :
    digitsWord? base cs = some w ↔ Denotes base cs w.toNat := by
  unfold digitsWord?
  rw [Option.bind_eq_some_iff]
  constructor
  · rintro ⟨n, hn, hw⟩
    rw [fit64?_eq_some_iff] at hw
    rw [← hw]
    exact (digits?_eq_some_iff hbase).1 hn
  · intro h
    exact ⟨w.toNat, (digits?_eq_some_iff hbase).2 h, fit64?_eq_some_iff.2 rfl⟩

theorem Denotes.unique (hbase : base ≤ 16) {m : Nat} (h : Denotes base cs n) (h' : Denotes base cs m) : n = m := by
  rw [← digits?_eq_some_iff hbase] at h h'
  rw [h, Option.some.injEq] at h'
  exact h'

theorem Denotes.isDigit (h : Denotes base cs n) : ∀ c ∈ cs, ∃ d, IsDigit base c d := by
  obtain ⟨-, ds, hds, -⟩ := h
  induction hds with
  | nil => simp
  | @cons c d cs ds hcd _ ih => exact List.forall_mem_cons.2 ⟨⟨d, hcd⟩, ih⟩

end Digits

/-! ## The language -/

/-- The letters behind a leading zero, and their bases. -/
def prefixRadices : List (Char × Nat) := [('x', 16), ('b', 2), ('o', 8)]

/-- The letters behind a quote, and their bases. -/
def sizedRadices : List (Char × Nat) := [('h', 16), ('b', 2), ('o', 8), ('d', 10)]

/-- The text is a number: decimal digits, digits of another base behind `0` and a letter, or
digits of any base behind an optional size, a quote and a letter. Letters may be in either case. -/
inductive Numeral : List Char → Nat → Prop
  | plain {ds n} : Denotes 10 ds n → Numeral ds n
  | marked {c base ds n} : (c.toLower, base) ∈ prefixRadices → Denotes base ds n → Numeral ('0' :: c :: ds) n
  | sized {size c base ds n} : (∀ d ∈ size, d.isDigit = true) → (c.toLower, base) ∈ sizedRadices →
      Denotes base ds n → Numeral (size ++ '\x27' :: c :: ds) n

/-- A number with gaps around it. -/
def Spaced (cs : List Char) (n : Nat) : Prop :=
  ∃ before body after, cs = before ++ (body ++ after) ∧ (∀ c ∈ before, isGap c = true) ∧
    (∀ c ∈ after, isGap c = true) ∧ Numeral body n

/-! ## The characters of a number -/

section Characters
variable {c : Char} {d n base : Nat} {body cs ds : List Char}

theorem isAlphanum_of_isAlpha (h : c.isAlpha = true) : c.isAlphanum = true := by
  rw [Char.isAlphanum, h, Bool.true_or]

theorem isAlphanum_of_decimal (h : c.isDigit = true) : c.isAlphanum = true := by
  rw [Char.isAlphanum, h, Bool.or_true]

/-- What holds of the digits in lower case holds of all, where case does not matter. -/
theorem IsDigit.holds {p : Char → Bool} (hlower : p ∘ Char.toLower = p) (hall : ∀ d < base, p (Nat.digitChar d) = true)
    (h : IsDigit base c d) : p c = true := by
  have hsame : p c.toLower = p c := congrFun hlower c
  rw [← hsame, h.2]
  exact hall d h.1

theorem isDigit_of_digit (h : IsDigit 10 c d) : c.isDigit = true := h.holds isDigit_toLower (by decide)

theorem isAlphanum_of_digit (h : IsDigit 16 c d) : c.isAlphanum = true :=
  h.holds (funext (apply_toLower (by decide))) (by decide)

/-- A digit of the base of a spelling is a digit of the spelling. -/
theorem Spelling.isDigit_of_digit {s : Spelling} (hs : s ∈ spellings) (h : IsDigit s.base c d) :
    s.isDigit c = true := by
  have hall : ∀ s ∈ spellings, ∀ d < s.base, s.isDigit (Nat.digitChar d) = true := by decide
  exact h.holds (spellings_toLower s hs) (hall s hs)

theorem Spelling.base_le {s : Spelling} (hs : s ∈ spellings) : s.base ≤ 16 := by
  have hall : ∀ s ∈ spellings, s.base ≤ 16 := by decide
  exact hall s hs

/-- What a spelling takes as a digit is a letter or a digit. -/
theorem Spelling.isAlphanum_of_isDigit {s : Spelling} (hs : s ∈ spellings) (h : s.isDigit c = true) :
    c.isAlphanum = true := by
  have hhex : isHexDigit c = true → c.isAlphanum = true := by
    intro hc
    obtain ⟨d, hd⟩ := Option.isSome_iff_exists.1 hc
    exact isAlphanum_of_digit (digitValue?_eq_some_iff.1 hd)
  simp only [spellings, List.mem_cons, List.not_mem_nil, or_false] at hs
  rcases hs with rfl | rfl | rfl | rfl | rfl | rfl | rfl | rfl
  · exact hhex h
  · simp only [isBinDigit, Bool.or_eq_true, decide_eq_true_eq] at h
    rcases h with rfl | rfl <;> rfl
  · apply isAlphanum_of_decimal
    simp only [isOctDigit, Bool.and_eq_true, decide_eq_true_eq] at h
    have hle : c.toNat ≤ '7'.toNat := h.2
    exact isDigit_iff.2 ⟨h.1, Nat.le_trans hle (by decide)⟩
  · exact hhex h
  all_goals exact isAlphanum_of_decimal h

theorem Denotes.isAlphanum (hbase : base ≤ 16) (h : Denotes base ds n) : ∀ c ∈ ds, c.isAlphanum = true := by
  intro c hc
  obtain ⟨d, hd⟩ := h.isDigit c hc
  exact isAlphanum_of_digit (hd.of_le hbase)

theorem prefixRadices_le : ∀ r ∈ prefixRadices, r.1.isAlpha = true ∧ r.2 ≤ 16 := by decide

theorem sizedRadices_le : ∀ r ∈ sizedRadices, r.1.isAlpha = true ∧ r.2 ≤ 16 := by decide

theorem isAlpha_of_toLower (h : c.toLower.isAlpha = true) : c.isAlpha = true := by
  rwa [Char.isAlpha_toLower_eq_isAlpha] at h

/-- A number has letters, digits and quotes only. -/
theorem Numeral.chars (h : Numeral body n) : ∀ c ∈ body, c.isAlphanum = true ∨ c = '\x27' := by
  intro c hc
  cases h with
  | plain hds => exact .inl (hds.isAlphanum (by decide) c hc)
  | @marked l base ds _ hl hds =>
    obtain ⟨halpha, hbase⟩ := prefixRadices_le _ hl
    rcases List.mem_cons.1 hc with rfl | hc
    · exact .inl rfl
    · rcases List.mem_cons.1 hc with rfl | hc
      · exact .inl (isAlphanum_of_isAlpha (isAlpha_of_toLower halpha))
      · exact .inl (hds.isAlphanum hbase c hc)
  | @sized size l base ds _ hsize hl hds =>
    obtain ⟨halpha, hbase⟩ := sizedRadices_le _ hl
    rcases List.mem_append.1 hc with hc | hc
    · exact .inl (isAlphanum_of_decimal (hsize c hc))
    · rcases List.mem_cons.1 hc with rfl | hc
      · exact .inr rfl
      · rcases List.mem_cons.1 hc with rfl | hc
        · exact .inl (isAlphanum_of_isAlpha (isAlpha_of_toLower halpha))
        · exact .inl (hds.isAlphanum hbase c hc)

theorem Numeral.not_isSpace (h : Numeral body n) : ∀ c ∈ body, isSpace c = false := by
  intro c hc
  rcases h.chars c hc with halnum | rfl
  · apply isSpace_eq_false_of_isIdentChar
    rw [isIdentChar, halnum, Bool.true_or]
  · rfl

theorem Numeral.no_gap (h : Numeral body n) : ∀ c ∈ body, isGap c = false := by
  intro c hc
  exact isGap_eq_false_of_isSpace (h.not_isSpace c hc)

end Characters

/-! ## Markers -/

/-- The text starts with a marker, a size being allowed before a quote. -/
inductive Opened : List Char → List Char → List Char → Prop
  | zero {c rest} : c.isAlpha = true → Opened ('0' :: c :: rest) ['0', c.toLower] rest
  | quote {size c rest} : (∀ d ∈ size, d.isDigit = true) →
      Opened (size ++ '\x27' :: c :: rest) ['\x27', c.toLower] rest

/-- The text cannot continue a number that stands before it. -/
def Closes (rest : List Char) : Prop := ∀ c ∈ rest.head?, c.isAlphanum = false ∧ c ≠ '\x27'

theorem closes_nil : Closes [] := by simp [Closes]

theorem closes_cons {c : Char} {rest : List Char} (ha : c.isAlphanum = false) (hq : c ≠ '\x27') :
    Closes (c :: rest) := by
  simp [Closes, ha, hq]

section Markers
variable {c : Char} {m n : Nat} {body cs ds rest rest' size marker marker' : List Char}

theorem not_isDigit_of_isAlpha (h : c.isAlpha = true) : c.isDigit = false := by
  rw [isAlpha_iff] at h
  rw [← Bool.not_eq_true, isDigit_iff]
  omega

theorem dropWhile_size (hsize : ∀ d ∈ size, d.isDigit = true) (cs : List Char) :
    (size ++ '\x27' :: cs).dropWhile Char.isDigit = '\x27' :: cs := by
  rw [List.dropWhile_append_of_pos hsize]
  rfl

theorem Opened.unique (h : Opened cs marker rest) (h' : Opened cs marker' rest') : marker = marker' ∧ rest = rest' := by
  -- A leading zero before a letter leaves the letter behind the digits, and a size leaves the quote.
  have hzero : ∀ {c c' rest rest' size}, c.isAlpha = true → (∀ d ∈ size, d.isDigit = true) →
      '0' :: c :: rest ≠ size ++ '\x27' :: c' :: rest' := by
    intro c c' rest rest' size halpha hsize hsame
    have htail := congrArg (List.dropWhile Char.isDigit) hsame
    rw [dropWhile_size hsize, List.dropWhile_cons_of_pos (by rfl),
      List.dropWhile_cons_of_neg (by simp [not_isDigit_of_isAlpha halpha])] at htail
    cases htail
    cases halpha
  generalize hsame : cs = cs' at h'
  cases h with
  | zero halpha =>
    cases h' with
    | zero =>
      cases hsame
      exact ⟨rfl, rfl⟩
    | quote hsize' => exact absurd hsame (hzero halpha hsize')
  | quote hsize =>
    cases h' with
    | zero halpha' => exact absurd hsame.symm (hzero halpha' hsize)
    | quote hsize' =>
      have htail := congrArg (List.dropWhile Char.isDigit) hsame
      rw [dropWhile_size hsize, dropWhile_size hsize'] at htail
      cases htail
      exact ⟨rfl, rfl⟩

theorem Opened.append (h : Opened cs marker ds) (rest : List Char) : Opened (cs ++ rest) marker (ds ++ rest) := by
  cases h with
  | zero halpha => exact .zero halpha
  | quote hsize =>
    rw [List.append_assoc]
    exact .quote hsize

theorem Opened.exists_append (h : Opened cs marker (ds ++ rest)) :
    ∃ body, cs = body ++ rest ∧ Opened body marker ds := by
  generalize hsame : ds ++ rest = behind at h
  cases h with
  | zero halpha =>
    subst hsame
    exact ⟨_, rfl, .zero halpha⟩
  | quote hsize =>
    subst hsame
    exact ⟨_, by simp, .quote hsize⟩

theorem Closes.takeWhile_dropWhile {p : Char → Bool} (hp : ∀ c, p c = true → c.isAlphanum = true) (hr : Closes rest)
    (hds : ∀ c ∈ ds, p c = true) : (ds ++ rest).takeWhile p = ds ∧ (ds ++ rest).dropWhile p = rest := by
  rw [List.takeWhile_append_of_pos hds, List.dropWhile_append_of_pos hds]
  cases rest with
  | nil => exact ⟨List.append_nil ds, rfl⟩
  | cons c rest =>
    have hc : ¬ p c = true := by
      intro hpc
      have halnum := hp c hpc
      rw [(hr c rfl).1] at halnum
      cases halnum
    rw [List.takeWhile_cons_of_neg hc, List.dropWhile_cons_of_neg hc]
    exact ⟨List.append_nil ds, rfl⟩

/-- Decimal digits that nothing continues have no marker. -/
theorem Denotes.not_opened (h : Denotes 10 ds n) (hr : Closes rest) : ¬ Opened (ds ++ rest) marker rest' := by
  have hdigits : ∀ c ∈ ds, c.isDigit = true := by
    intro c hc
    obtain ⟨d, hd⟩ := h.isDigit c hc
    exact isDigit_of_digit hd
  have hdrop : (ds ++ rest).dropWhile Char.isDigit = rest :=
    (hr.takeWhile_dropWhile (fun _ => isAlphanum_of_decimal) hdigits).2
  intro hopened
  generalize hsame : ds ++ rest = cs at hopened hdrop
  have hhead : ∀ c ∈ rest.head?, c.isAlphanum = false ∧ c ≠ '\x27' := hr
  cases hopened with
  | @zero c behind halpha =>
    -- The letter is one of the digits or the first character after them.
    rw [List.dropWhile_cons_of_pos (by rfl),
      List.dropWhile_cons_of_neg (by simp [not_isDigit_of_isAlpha halpha])] at hdrop
    rw [← hdrop] at hhead
    have halnum := (hhead c rfl).1
    rw [isAlphanum_of_isAlpha halpha] at halnum
    cases halnum
  | quote hsize =>
    rw [dropWhile_size hsize] at hdrop
    rw [← hdrop] at hhead
    exact (hhead _ rfl).2 rfl

end Markers

/-! ## Numbers and spellings -/

/-- What stands behind the marker of a spelling. -/
def Spelling.behind? (s : Spelling) (cs : List Char) : Option (List Char) :=
  afterWord? s.marker (if s.sized then cs.dropWhile Char.isDigit else cs)

section Spellings
variable {m n : Nat} {body cs ds rest : List Char} {s s' : Spelling}

theorem Spelling.read?_eq (s : Spelling) (cs : List Char) :
    s.read? cs = (s.behind? cs).bind fun ds =>
      (digitsWord? s.base (ds.takeWhile s.isDigit)).map fun n => (n, ds.dropWhile s.isDigit) := by
  unfold read? behind?
  simp only [Option.bind_eq_bind, Option.map_eq_bind]
  rfl

/-- The spellings with a marker, and the one without. -/
theorem spellings_eq : spellings = spellings.dropLast ++ [⟨false, [], Char.isDigit, 10⟩] := rfl

/-- The forms of the spellings with a marker. -/
theorem spelling_cases : ∀ s ∈ spellings.dropLast,
    (s.sized = false ∧ ∃ r ∈ prefixRadices, s.marker = ['0', r.1] ∧ s.base = r.2) ∨
    (s.sized = true ∧ ∃ r ∈ sizedRadices, s.marker = ['\x27', r.1] ∧ s.base = r.2) := by
  decide

theorem exists_prefix_spelling : ∀ r ∈ prefixRadices,
    ∃ s ∈ spellings.dropLast, s.marker = ['0', r.1] ∧ s.base = r.2 := by
  decide

theorem exists_sized_spelling : ∀ r ∈ sizedRadices,
    ∃ s ∈ spellings.dropLast, s.marker = ['\x27', r.1] ∧ s.base = r.2 := by
  decide

theorem base_of_marker :
    ∀ s ∈ spellings.dropLast, ∀ s' ∈ spellings.dropLast, s.marker = s'.marker → s.base = s'.base := by
  decide

theorem exists_marker {w : List Char} {p l : Char} (hp : p.isAlpha = false) (h : w.map Char.toLower = [p, l]) :
    ∃ c, w = [p, c] ∧ c.toLower = l := by
  match w, h with
  | [q, c], h =>
    simp only [List.map_cons, List.map_nil, List.cons.injEq, and_true] at h
    rw [(toLower_eq_iff hp).1 h.1]
    exact ⟨c, rfl, h.2⟩

theorem Spelling.behind?_eq_some_iff (hs : s ∈ spellings.dropLast) :
    s.behind? cs = some rest ↔ Opened cs s.marker rest := by
  unfold behind?
  rw [afterWord?_eq_some_iff]
  constructor
  · rintro ⟨w, hcs, hw⟩
    rcases spelling_cases s hs with ⟨hsized, r, hr, hmarker, -⟩ | ⟨hsized, r, hr, hmarker, -⟩
    · rw [hmarker] at hw ⊢
      obtain ⟨c, rfl, hc⟩ := exists_marker (by rfl) hw
      rw [hsized, if_neg (by simp)] at hcs
      rw [hcs, ← hc]
      have halpha := (prefixRadices_le r hr).1
      rw [← hc] at halpha
      exact .zero (isAlpha_of_toLower halpha)
    · rw [hmarker] at hw ⊢
      obtain ⟨c, rfl, hc⟩ := exists_marker (by rfl) hw
      rw [hsized, if_pos rfl] at hcs
      have hsplit := List.takeWhile_append_dropWhile (p := Char.isDigit) (l := cs)
      rw [hcs] at hsplit
      rw [← hsplit, ← hc]
      exact .quote fun _ => List.mem_takeWhile_imp
  · intro h
    generalize hsame : s.marker = marker at h
    rcases spelling_cases s hs with ⟨hsized, r, hr, hmarker, -⟩ | ⟨hsized, r, hr, hmarker, -⟩
    · cases h with
      | @zero c rest => exact ⟨['0', c], by rw [hsized]; rfl, rfl⟩
      | quote =>
        rw [hmarker] at hsame
        cases hsame
    · cases h with
      | zero =>
        rw [hmarker] at hsame
        cases hsame
      | @quote size c rest hsize =>
        rw [hsized, if_pos rfl, dropWhile_size hsize]
        exact ⟨['\x27', c], rfl, rfl⟩

/-- A number is decimal digits, or digits behind the marker of their base. -/
theorem numeral_iff : Numeral body n ↔
    Denotes 10 body n ∨ ∃ s ∈ spellings.dropLast, ∃ ds, Opened body s.marker ds ∧ Denotes s.base ds n := by
  constructor
  · intro h
    cases h with
    | plain hds => exact .inl hds
    | marked hc hds =>
      obtain ⟨s, hs, hmarker, rfl⟩ := exists_prefix_spelling _ hc
      refine .inr ⟨s, hs, _, ?_, hds⟩
      rw [hmarker]
      exact .zero (isAlpha_of_toLower (prefixRadices_le _ hc).1)
    | sized hsize hc hds =>
      obtain ⟨s, hs, hmarker, rfl⟩ := exists_sized_spelling _ hc
      refine .inr ⟨s, hs, _, ?_, hds⟩
      rw [hmarker]
      exact .quote hsize
  · rintro (hds | ⟨s, hs, ds, hopened, hds⟩)
    · exact .plain hds
    · generalize hsame : s.marker = marker at hopened
      rcases spelling_cases s hs with ⟨-, r, hr, hmarker, hbase⟩ | ⟨-, r, hr, hmarker, hbase⟩
      · rw [hmarker] at hsame
        cases hopened with
        | zero =>
          obtain ⟨-, hc, -⟩ : '0' = '0' ∧ r.1 = _ ∧ _ := by simpa only [List.cons.injEq] using hsame
          rw [hbase] at hds
          refine .marked ?_ hds
          rwa [← hc]
        | quote => cases hsame
      · rw [hmarker] at hsame
        cases hopened with
        | zero => cases hsame
        | quote hsize =>
          obtain ⟨-, hc, -⟩ : '\x27' = '\x27' ∧ r.1 = _ ∧ _ := by simpa only [List.cons.injEq] using hsame
          rw [hbase] at hds
          refine .sized hsize ?_ hds
          rwa [← hc]

theorem Numeral.unique (h : Numeral body m) (h' : Numeral body n) : m = n := by
  rw [numeral_iff] at h h'
  have hplain : ∀ {n marker ds}, Denotes 10 body n → ¬ Opened body marker ds := by
    intro n marker ds hds hopened
    have hnot : ¬ Opened (body ++ []) marker ds := hds.not_opened closes_nil
    rw [List.append_nil] at hnot
    exact hnot hopened
  rcases h with hds | ⟨s, hs, ds, hopened, hds⟩
  · rcases h' with hds' | ⟨s', hs', ds', hopened', hds'⟩
    · exact hds.unique (by decide) hds'
    · exact absurd hopened' (hplain hds)
  · rcases h' with hds' | ⟨s', hs', ds', hopened', hds'⟩
    · exact absurd hopened (hplain hds')
    · obtain ⟨hmarker, rfl⟩ := hopened.unique hopened'
      rw [← base_of_marker s hs s' hs' hmarker] at hds'
      exact hds.unique (s.base_le (List.mem_of_mem_dropLast hs)) hds'

end Spellings

/-! ## What is read is in the language -/

section Reading
variable {m : Nat} {n : UInt64} {body cs ds rest : List Char} {s : Spelling}

theorem numeral_of_read? (hs : s ∈ spellings) (h : s.read? cs = some (n, rest)) :
    ∃ body, cs = body ++ rest ∧ Numeral body n.toNat := by
  rw [Spelling.read?_eq, Option.bind_eq_some_iff] at h
  obtain ⟨digits, hbehind, h⟩ := h
  obtain ⟨w, hword, hpair⟩ := Option.map_eq_some_iff.1 h
  cases hpair
  have hds := (digitsWord?_eq_some_iff (s.base_le hs)).1 hword
  rw [spellings_eq, List.mem_append, List.mem_singleton] at hs
  rcases hs with hs | rfl
  · rw [Spelling.behind?_eq_some_iff hs, ← List.takeWhile_append_dropWhile (p := s.isDigit) (l := digits)] at hbehind
    obtain ⟨body, rfl, hopened⟩ := hbehind.exists_append
    exact ⟨body, rfl, numeral_iff.2 (.inr ⟨s, hs, _, hopened, hds⟩)⟩
  · cases hbehind
    exact ⟨_, List.takeWhile_append_dropWhile.symm, .plain hds⟩

theorem numeral_of_literal? (h : literal? cs = some (n, rest)) : ∃ body, cs = body ++ rest ∧ Numeral body n.toNat := by
  obtain ⟨s, hs, hread⟩ := List.exists_of_findSome?_eq_some h
  exact numeral_of_read? hs hread

/-! ## What is in the language is read -/

theorem Spelling.read?_append (hs : s ∈ spellings) (hbehind : s.behind? cs = some (ds ++ rest))
    (hds : Denotes s.base ds m) (hm : m ≤ max64) (hr : Closes rest) : s.read? cs = some (clamp64 m, rest) := by
  have hdigits : ∀ c ∈ ds, s.isDigit c = true := by
    intro c hc
    obtain ⟨d, hd⟩ := hds.isDigit c hc
    exact isDigit_of_digit hs hd
  obtain ⟨htake, hdrop⟩ := hr.takeWhile_dropWhile (fun _ => isAlphanum_of_isDigit hs) hdigits
  have hword : digitsWord? s.base ds = some (clamp64 m) := by
    rw [digitsWord?_eq_some_iff (base_le hs), toNat_clamp64, Nat.min_eq_left hm]
    exact hds
  rw [read?_eq, hbehind, Option.bind_some, htake, hdrop, hword, Option.map_some]

/-- A number is read as a whole unless something behind it continues it. -/
theorem literal?_append (h : Numeral body m) (hm : m ≤ max64) (hr : Closes rest) :
    literal? (body ++ rest) = some (clamp64 m, rest) := by
  unfold literal?
  rw [spellings_eq, List.findSome?_append, List.findSome?_singleton]
  rcases numeral_iff.1 h with hds | ⟨s, hs, ds, hopened, hds⟩
  · have hnone : (spellings.dropLast.findSome? fun s => s.read? (body ++ rest)) = none := by
      rw [List.findSome?_eq_none_iff]
      intro s hs
      rw [Spelling.read?_eq, Option.bind_eq_none_iff]
      intro digits hbehind
      exact absurd ((Spelling.behind?_eq_some_iff hs).1 hbehind) (hds.not_opened hr)
    rw [hnone, Option.none_or]
    exact Spelling.read?_append (by simp [spellings]) rfl hds hm hr
  · have hopened' := hopened.append rest
    -- A spelling with another marker finds no digits.
    have hsome : (spellings.dropLast.findSome? fun s => s.read? (body ++ rest)) = some (clamp64 m, rest) := by
      cases hfind : spellings.dropLast.findSome? fun s => s.read? (body ++ rest) with
      | none =>
        rw [List.findSome?_eq_none_iff] at hfind
        have hread := Spelling.read?_append (List.mem_of_mem_dropLast hs) ((Spelling.behind?_eq_some_iff hs).2 hopened')
          hds hm hr
        rw [hfind s hs] at hread
        cases hread
      | some p =>
        obtain ⟨s', hs', hread⟩ := List.exists_of_findSome?_eq_some hfind
        have hbound := hread
        rw [Spelling.read?_eq, Option.bind_eq_some_iff] at hbound
        obtain ⟨digits, hbehind, -⟩ := hbound
        obtain ⟨hmarker, rfl⟩ := hopened'.unique ((Spelling.behind?_eq_some_iff hs').1 hbehind)
        rw [base_of_marker s hs s' hs' hmarker] at hds
        rw [Spelling.read?_append (List.mem_of_mem_dropLast hs') hbehind hds hm hr] at hread
        exact hread.symm
    rw [hsome, Option.some_or]

end Reading

/-! ## Gaps around a number -/

section Gaps
variable {c : Char} {m n : Nat} {body cs rest before after : List Char}

theorem not_isAlphanum_of_isGap (h : isGap c = true) : c.isAlphanum = false ∧ c ≠ '\x27' := by
  simp only [isGap, Bool.or_eq_true, decide_eq_true_eq] at h
  rcases h with ((rfl | rfl) | rfl) | rfl <;> decide

theorem Numeral.exists_cons (h : Numeral body n) : ∃ c cs, body = c :: cs := by
  cases h with
  | plain hds => exact List.exists_cons_of_ne_nil hds.ne_nil
  | marked => exact ⟨_, _, rfl⟩
  | sized => exact List.exists_cons_of_ne_nil (by simp)

theorem Numeral.dropGaps (h : Numeral body n) (rest : List Char) : dropGaps (body ++ rest) = body ++ rest := by
  obtain ⟨c, cs, rfl⟩ := h.exists_cons
  unfold Text.dropGaps
  exact List.dropWhile_cons_of_neg (by simp [h.no_gap c (by simp)])

/-- The gaps around a number are all the gaps there are. -/
theorem filter_spaced (hbefore : ∀ c ∈ before, isGap c = true) (hafter : ∀ c ∈ after, isGap c = true)
    (h : Numeral body n) : (before ++ (body ++ after)).filter (fun c => !isGap c) = body := by
  have hbefore' : before.filter (fun c => !isGap c) = [] := List.filter_eq_nil_iff.2 (by simpa using hbefore)
  have hafter' : after.filter (fun c => !isGap c) = [] := List.filter_eq_nil_iff.2 (by simpa using hafter)
  have hbody : body.filter (fun c => !isGap c) = body := List.filter_eq_self.2 (by simpa using h.no_gap)
  rw [List.filter_append, List.filter_append, hbefore', hafter', hbody, List.nil_append, List.append_nil]

theorem Spaced.unique (h : Spaced cs m) (h' : Spaced cs n) : m = n := by
  obtain ⟨before, body, after, rfl, hbefore, hafter, hbody⟩ := h
  obtain ⟨before', body', after', hsame, hbefore', hafter', hbody'⟩ := h'
  have hfilter := filter_spaced hbefore hafter hbody
  rw [hsame, filter_spaced hbefore' hafter' hbody'] at hfilter
  subst hfilter
  exact hbody.unique hbody'

theorem Spaced.pad (h : Spaced cs n) (hbefore : ∀ c ∈ before, isGap c = true) (hafter : ∀ c ∈ after, isGap c = true) :
    Spaced (before ++ (cs ++ after)) n := by
  obtain ⟨before', body, after', rfl, hbefore', hafter', hbody⟩ := h
  exact ⟨before ++ before', body, after' ++ after, by simp, List.forall_mem_append.2 ⟨hbefore, hbefore'⟩,
    List.forall_mem_append.2 ⟨hafter', hafter⟩, hbody⟩

theorem Numeral.spaced (h : Numeral body n) : Spaced body n := ⟨[], body, [], by simp, by simp, by simp, h⟩

theorem spaced_of_spacedLiteral? {w : UInt64} (h : spacedLiteral? cs = some (w, rest)) :
    ∃ num, cs = num ++ rest ∧ Spaced num w.toNat := by
  obtain ⟨⟨w', behind⟩, hread, hpair⟩ := Option.map_eq_some_iff.1 h
  cases hpair
  obtain ⟨body, hbody, hnumeral⟩ := numeral_of_literal? hread
  obtain ⟨before, hcs, hbefore⟩ := exists_gaps cs
  obtain ⟨after, hbehind, hafter⟩ := exists_gaps behind
  refine ⟨before ++ (body ++ after), ?_, hnumeral.spaced.pad hbefore hafter⟩
  rw [List.append_assoc, List.append_assoc, ← hbehind, ← hbody]
  exact hcs

theorem spacedLiteral?_dropGaps (cs : List Char) : spacedLiteral? (dropGaps cs) = spacedLiteral? cs := by
  unfold spacedLiteral?
  rw [dropGaps_dropGaps]

theorem spacedLiteral?_append (h : Spaced cs m) (hm : m ≤ max64) (hr : Closes rest) :
    spacedLiteral? (cs ++ rest) = some (clamp64 m, dropGaps rest) := by
  obtain ⟨before, body, after, rfl, hbefore, hafter, hbody⟩ := h
  have hcloses : Closes (after ++ rest) := by
    cases after with
    | nil => exact hr
    | cons c after =>
      obtain ⟨halnum, hquote⟩ := not_isAlphanum_of_isGap (hafter c (by simp))
      exact closes_cons halnum hquote
  unfold spacedLiteral?
  rw [List.append_assoc, List.append_assoc, dropGaps_append hbefore, hbody.dropGaps, literal?_append hbody hm hcloses,
    Option.map_some]
  simp only [dropGaps_append hafter]

end Gaps

/-! ## Numbers as whole texts -/

theorem ofText?_eq_some_iff {cs : List Char} {n : UInt64} :
    ofText? cs = some n ↔ Spaced (cs.filter (· ≠ '_')) n.toNat := by
  unfold ofText?
  constructor
  · intro h
    split at h
    · rename_i m hread
      cases h
      obtain ⟨num, hnum, hspaced⟩ := spaced_of_spacedLiteral? hread
      rw [hnum, List.append_nil]
      exact hspaced
    · cases h
  · intro h
    have hread := spacedLiteral?_append h (toNat_le_max64 n) closes_nil
    rw [List.append_nil, clamp64_toNat] at hread
    rw [hread]
    rfl

/-- A text is read as a number of 64 bits exactly when it is the text of that number, without
its underscores; a text of a larger number and a text of no number are refused. -/
theorem ofString?_exact (t : String) :
    (∀ n : UInt64, ofString? t = some n ↔ Spaced (t.toList.filter (· ≠ '_')) n.toNat) ∧
    (ofString? t = none ↔ ∀ m < 2 ^ 64, ¬ Spaced (t.toList.filter (· ≠ '_')) m) ∧
    ∀ m, Spaced (t.toList.filter (· ≠ '_')) m → 2 ^ 64 ≤ m → ofString? t = none := by
  have hsome : ∀ n : UInt64, ofString? t = some n ↔ Spaced (t.toList.filter (· ≠ '_')) n.toNat :=
    fun n => ofText?_eq_some_iff
  have hnone : ofString? t = none ↔ ∀ m < 2 ^ 64, ¬ Spaced (t.toList.filter (· ≠ '_')) m := by
    rw [Option.eq_none_iff_forall_ne_some]
    constructor
    · intro h m hm hspaced
      refine h (clamp64 m) ((hsome _).2 ?_)
      rw [toNat_clamp64, Nat.min_eq_left (by rw [max64]; omega)]
      exact hspaced
    · intro h n hn
      exact h n.toNat n.toNat_lt ((hsome n).1 hn)
  refine ⟨hsome, hnone, ?_⟩
  intro m hspaced hm
  rw [hnone]
  intro m' hm' hspaced'
  rw [hspaced.unique hspaced'] at hm
  omega

/-- A size is not a limit, and a number of 65 bits is none. -/
theorem ofString?_exact_limits :
    ofString? "4'hF_f " = some 255 ∧ ofString? "0x1_0000_0000_0000_0000" = none := by
  have hsmall : Denotes 16 ['F', 'f'] 255 := (digits?_eq_some_iff (by decide)).1 (by decide +kernel)
  have hlarge : Denotes 16 ('1' :: List.replicate 16 '0') (2 ^ 64) :=
    (digits?_eq_some_iff (by decide)).1 (by decide +kernel)
  have hsized : Numeral (['4'] ++ '\x27' :: 'h' :: ['F', 'f']) 255 := .sized (by simp) (by simp [sizedRadices]) hsmall
  have hmarked : Numeral ('0' :: 'x' :: '1' :: List.replicate 16 '0') (2 ^ 64) :=
    .marked (by simp [prefixRadices]) hlarge
  constructor
  · exact ((ofString?_exact "4'hF_f ").1 255).2 ⟨[], _, [' '], by decide +kernel, by simp, by simp [isGap], hsized⟩
  · exact (ofString?_exact "0x1_0000_0000_0000_0000").2.2 (2 ^ 64)
      ⟨[], _, [], by decide +kernel, by simp, by simp, hmarked⟩ (Nat.le_refl _)

end CoreForge.Number
