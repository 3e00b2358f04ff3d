import CoreForge.Proofs.Comments
import CoreForge.Proofs.Keywords
import CoreForge.Proofs.Nesting
/-!
# Tokens and the texts that spell them

A declaration is a list of tokens, and any text with these tokens in order and gaps between
them spells it; a gap may be empty unless two words meet. At every place where such a text is
taken apart stands a delimiter (`Printed.compose`), so what nothing of a token and nothing of a
gap has, the text does not have.
-/

namespace CoreForge.Entity

open CoreForge.Text

/-- A mark of punctuation. -/
inductive Mark
  | openParen
  | closeParen
  | semicolon
  | comma
  | colon
  | assign
deriving DecidableEq, Repr

def Mark.text : Mark → List Char
  | .openParen => ['(']
  | .closeParen => [')']
  | .semicolon => [';']
  | .comma => [',']
  | .colon => [':']
  | .assign => [':', '=']

/-- A part of a declaration. -/
inductive Token
  | mark (m : Mark)
  /-- A keyword, a name, a type, or a default. -/
  | word (cs : List Char)
deriving DecidableEq, Repr

namespace Token

def text : Token → List Char
  | mark m => m.text
  | word cs => cs

def isWord : Token → Bool
  | mark _ => false
  | word _ => true

/-- The first of some tokens is a word. -/
def startsWithWord : List Token → Bool
  | [] => false
  | t :: _ => t.isWord

end Token

open Token

def AllGaps (cs : List Char) : Prop := ∀ c ∈ cs, isGap c = true

theorem AllGaps.isSpace {gaps : List Char} (h : AllGaps gaps) : ∀ c ∈ gaps, isSpace c = true := fun c hc =>
  isSpace_of_isGap (h c hc)

/-- The text is the tokens, each with a gap behind it. No gap is empty where two words meet. -/
inductive Spells : List Token → List Char → Prop
  | nil : Spells [] []
  | cons {t ts gaps rest} : AllGaps gaps → (t.isWord = true → startsWithWord ts = true → gaps ≠ []) → Spells ts rest →
      Spells (t :: ts) (t.text ++ (gaps ++ rest))

/-- The text is the tokens with gaps around them. -/
def Printed (ts : List Token) (cs : List Char) : Prop :=
  ∃ gaps rest, AllGaps gaps ∧ cs = gaps ++ rest ∧ Spells ts rest

/-- The tokens with a blank behind each. -/
def spaced (ts : List Token) : List Char := ts.flatMap fun t => t.text ++ [' ']

/-- Any tokens can be printed. -/
theorem printed_spaced (ts : List Token) : Printed ts (spaced ts) := by
  have hspells : Spells ts (spaced ts) := by
    induction ts with
    | nil => exact .nil
    | cons t ts ih =>
      rw [spaced, List.flatMap_cons, List.append_assoc]
      exact .cons (by simp [AllGaps, isGap]) (by simp) ih
  exact ⟨[], _, by simp [AllGaps], rfl, hspells⟩

/-! ## Delimiters -/

/-- A character that stands between words. -/
def isDelimiter (c : Char) : Bool := isGap c || c ∈ ['(', ')', ';', ',', ':', '=']

/-- A delimiter stands on one side of the place where two texts meet. -/
def Delimited (a b : List Char) : Prop :=
  (∀ c ∈ a.getLast?, isDelimiter c = true) ∨ ∀ c ∈ b.head?, isDelimiter c = true

theorem isDelimiter_of_mark (m : Mark) : ∀ c ∈ m.text, isDelimiter c = true := by
  cases m <;> simp [Mark.text, isDelimiter]

theorem isDelimiter_of_allGaps {gaps : List Char} (h : AllGaps gaps) : ∀ c ∈ gaps, isDelimiter c = true := fun c hc => by
  simp [isDelimiter, h c hc]

theorem delimited_of_gaps {gaps : List Char} (h : AllGaps gaps) (b : List Char) : Delimited gaps b :=
  .inl fun c hc => isDelimiter_of_allGaps h c (List.mem_of_getLast? hc)

/-- Nothing of a word goes on behind its gap. -/
theorem Spells.delimited {t : Token} {ts : List Token} {gaps rest : List Char} (hgaps : AllGaps gaps)
    (hword : t.isWord = true → startsWithWord ts = true → gaps ≠ []) (h : Spells ts rest) :
    Delimited t.text (gaps ++ rest) := by
  cases t with
  | mark m => exact .inl fun c hc => isDelimiter_of_mark m c (List.mem_of_getLast? hc)
  | word cs =>
    refine .inr fun c hc => ?_
    cases gaps with
    | cons g gaps =>
      cases hc
      exact isDelimiter_of_allGaps hgaps c (by simp)
    | nil =>
      cases h with
      | nil => cases hc
      | @cons t' ts gaps rest _ _ _ =>
        cases t' with
        | word cs' => exact absurd rfl (hword rfl rfl)
        | mark m =>
          refine isDelimiter_of_mark m c ?_
          cases m <;> cases hc <;> simp [Mark.text]

/-- What holds of the tokens and of gaps, and of two texts with a delimiter between them when it
holds of each, holds of the whole text. -/
theorem Spells.compose {P : List Char → Prop} (hgap : ∀ g, AllGaps g → P g)
    (happend : ∀ a b, Delimited a b → P a → P b → P (a ++ b)) {ts : List Token} {cs : List Char} (h : Spells ts cs)
    (htoken : ∀ t ∈ ts, P t.text) : P cs := by
  induction h with
  | nil => exact hgap [] (by simp [AllGaps])
  | @cons t ts gaps rest hgaps hword hrest ih =>
    obtain ⟨ht, hts⟩ := List.forall_mem_cons.1 htoken
    have htail := happend gaps rest (delimited_of_gaps hgaps rest) (hgap gaps hgaps) (ih hts)
    exact happend _ _ (hrest.delimited hgaps hword) ht htail

theorem Printed.compose {P : List Char → Prop} (hgap : ∀ g, AllGaps g → P g)
    (happend : ∀ a b, Delimited a b → P a → P b → P (a ++ b)) {ts : List Token} {cs : List Char} (h : Printed ts cs)
    (htoken : ∀ t ∈ ts, P t.text) : P cs := by
  obtain ⟨gaps, rest, hgaps, rfl, hrest⟩ := h
  exact happend gaps rest (delimited_of_gaps hgaps rest) (hgap gaps hgaps) (hrest.compose hgap happend htoken)

/-! ## Taking a text apart -/

/-- The text starts with a gap. -/
def StartsWithGap (cs : List Char) : Prop := ∃ g rest, cs = g :: rest ∧ isGap g = true

section Split
variable {ts us : List Token} {cs : List Char}

theorem Printed.cons {t : Token} (h : Printed (t :: ts) cs) :
    ∃ gaps rest, AllGaps gaps ∧ cs = gaps ++ (t.text ++ rest) ∧ Printed ts rest ∧
      (t.isWord = true → startsWithWord ts = true → StartsWithGap rest) := by
  obtain ⟨gaps, rest, hgaps, rfl, hrest⟩ := h
  cases hrest with
  | @cons _ _ gaps' rest' hgaps' hword hrest' =>
    refine ⟨gaps, _, hgaps, rfl, ⟨gaps', rest', hgaps', rfl, hrest'⟩, fun ht hts => ?_⟩
    cases gaps' with
    | nil => exact absurd rfl (hword ht hts)
    | cons g gaps' => exact ⟨g, _, rfl, hgaps' g (by simp)⟩

theorem Delimited.append {a b c : List Char} (h : Delimited a (b ++ c)) (h' : Delimited b c) : Delimited (a ++ b) c := by
  cases hb : b with
  | nil => simpa [hb] using h
  | cons d ds =>
    -- The two texts together end as the second one does, which is not empty.
    refine h'.imp_left fun hlast => ?_
    rwa [List.getLast?_append_of_ne_nil _ (List.cons_ne_nil d ds), ← hb]

theorem Spells.append (h : Spells (ts ++ us) cs) : ∃ a b, cs = a ++ b ∧ Spells ts a ∧ Spells us b ∧ Delimited a b := by
  induction ts generalizing cs with
  | nil => exact ⟨[], cs, rfl, .nil, h, .inl (by simp)⟩
  | cons t ts ih =>
    cases h with
    | @cons _ _ gaps rest hgaps hword hrest =>
      have hdelimited := hrest.delimited hgaps hword
      obtain ⟨a, b, rfl, ha, hb, hab⟩ := ih hrest
      refine ⟨t.text ++ (gaps ++ a), b, by simp, .cons hgaps (fun ht hts => hword ht ?_) ha, hb, ?_⟩
      · cases ts with
        | nil => cases hts
        | cons t' ts => exact hts
      · rw [← List.append_assoc] at hdelimited
        exact hdelimited.append ((delimited_of_gaps hgaps _).append hab)

/-- A text is taken apart between two tokens. -/
theorem Printed.append (h : Printed (ts ++ us) cs) : ∃ a b, cs = a ++ b ∧ Printed ts a ∧ Spells us b ∧ Delimited a b := by
  obtain ⟨gaps, rest, hgaps, rfl, hrest⟩ := h
  obtain ⟨a, b, rfl, ha, hb, hab⟩ := hrest.append
  exact ⟨gaps ++ a, b, by simp, ⟨gaps, a, hgaps, rfl, ha⟩, hb, (delimited_of_gaps hgaps _).append hab⟩

/-- A text is split at a mark. -/
theorem Printed.split {m : Mark} (h : Printed (ts ++ mark m :: us) cs) :
    ∃ a b, cs = a ++ (m.text ++ b) ∧ Printed ts a ∧ Printed us b := by
  obtain ⟨gaps, rest, hgaps, rfl, hrest⟩ := h
  obtain ⟨a, b, rfl, ha, hb, -⟩ := hrest.append
  cases hb with
  | @cons _ _ gaps' rest' hgaps' _ hrest' =>
    exact ⟨gaps ++ a, gaps' ++ rest', by simp [text], ⟨gaps, a, hgaps, rfl, ha⟩, gaps', rest', hgaps', rfl, hrest'⟩

/-- A text of parts with a mark between them is the texts of the parts with the mark between them. -/
theorem Printed.intercalate {m : Mark} {tss : List (List Token)} (hne : tss ≠ [])
    (h : Printed ([mark m].intercalate tss) cs) :
    ∃ qs, cs = m.text.intercalate qs ∧ List.Forall₂ Printed tss qs := by
  induction tss generalizing cs with
  | nil => contradiction
  | cons ts tss ih =>
    cases tss with
    | nil =>
      rw [List.intercalate_singleton] at h
      exact ⟨[cs], (List.intercalate_singleton).symm, .cons h .nil⟩
    | cons us tss =>
      rw [List.intercalate_cons_cons, List.append_assoc, List.singleton_append] at h
      obtain ⟨a, b, rfl, ha, hb⟩ := h.split
      obtain ⟨qs, rfl, hqs⟩ := ih (by simp) hb
      cases hqs with
      | @cons _ q _ qs hq hqs =>
        exact ⟨a :: q :: qs, by rw [List.intercalate_cons_cons, List.append_assoc], .cons ha (.cons hq hqs)⟩

end Split

/-! ## What no part of a text has -/

theorem isIdentChar_of_isDelimiter {c : Char} (h : isDelimiter c = true) : isIdentChar c = false := by
  simp only [isDelimiter, Bool.or_eq_true, decide_eq_true_eq, List.mem_cons, List.not_mem_nil, or_false] at h
  rcases h with hgap | rfl | rfl | rfl | rfl | rfl | rfl
  · by_contra hident
    rw [isGap_eq_false_of_isIdentChar (by simpa using hident)] at hgap
    cases hgap
  all_goals decide

theorem Delimited.parted {a b : List Char} (h : Delimited a b) : Parted a b := by
  have hboundary : ∀ o : Option Char, (∀ c ∈ o, isDelimiter c = true) → isBoundary o = true := by
    intro o ho
    cases o with
    | none => rfl
    | some c => rw [isBoundary_some, isIdentChar_of_isDelimiter (ho c rfl), Bool.not_false]
  exact h.imp (hboundary _) (hboundary _)

section Whole
variable {ts : List Token} {cs : List Char}

/-- None of the tokens has the keyword. -/
def Lacks (keyword : List Char) (ts : List Token) : Prop := ∀ t ∈ ts, words keyword none t.text = []

theorem lacks_nil (keyword : List Char) : Lacks keyword [] := List.forall_mem_nil _

theorem Printed.words_eq_nil {keyword : List Char} (hk : isIdentifier keyword = true) (h : Printed ts cs)
    (htoken : Lacks keyword ts) : words keyword none cs = [] := by
  have hgap : ∀ gaps, AllGaps gaps → words keyword none gaps = [] := fun gaps hgaps =>
    words_of_not_isIdentChar hk fun c hc => isIdentChar_of_isDelimiter (isDelimiter_of_allGaps hgaps c hc)
  refine h.compose (P := fun cs => words keyword none cs = []) hgap (fun a b hab ha hb => ?_) htoken
  rw [words_append hk hab.parted, ha, hb]
  rfl

theorem Spells.printed (h : Spells ts cs) : Printed ts cs := ⟨[], cs, by simp [AllGaps], rfl, h⟩

theorem Printed.allGaps (h : Printed [] cs) : AllGaps cs := by
  obtain ⟨gaps, rest, hgaps, rfl, hrest⟩ := h
  cases hrest
  simpa using hgaps

/-- A character that is in no token and no gap is not in the text. -/
theorem Printed.not_mem (h : Printed ts cs) {c : Char} (hc : isGap c = false) (htoken : ∀ t ∈ ts, c ∉ t.text) :
    c ∉ cs := by
  refine h.compose (P := fun cs => c ∉ cs) (fun g hg hmem => ?_) (fun a b _ ha hb => ?_) htoken
  · rw [hg c hmem] at hc
    cases hc
  · exact List.not_mem_append ha hb

theorem closed_of_allGaps {gaps : List Char} (h : AllGaps gaps) : Closed gaps := closed_of_plain fun c hc => by
  have hgap := h c hc
  refine ⟨?_, ?_, ?_⟩ <;> rintro rfl <;> cases hgap

theorem Printed.closed (h : Printed ts cs) (htoken : ∀ t ∈ ts, Closed t.text) : Closed cs :=
  h.compose (fun _ hg => closed_of_allGaps hg) (fun _ _ _ ha hb => ha.append hb) htoken

theorem Printed.nested (h : Printed ts cs) (htoken : ∀ t ∈ ts, Nested t.text) : Nested cs :=
  h.compose (fun _ hg => (closed_of_allGaps hg).nested) (fun _ _ _ ha hb => ha.append hb) htoken

theorem no_comment_append {a b : List Char} (hab : Delimited a b) (ha : ¬ ['-', '-'] <:+: a) (hb : ¬ ['-', '-'] <:+: b) :
    ¬ ['-', '-'] <:+: a ++ b := by
  intro h
  rcases pair_of_append h with h | h | ⟨hlast, hhead⟩
  · exact ha h
  · exact hb h
  · rcases hab with h | h
    · cases h '-' hlast
    · cases h '-' hhead

theorem Printed.no_comment (h : Printed ts cs) (htoken : ∀ t ∈ ts, ¬ ['-', '-'] <:+: t.text) :
    ¬ ['-', '-'] <:+: cs := by
  refine h.compose (P := fun cs => ¬ ['-', '-'] <:+: cs) (fun g hg hwithin => ?_) (fun _ _ => no_comment_append) htoken
  cases hg '-' (hwithin.subset (by simp))

end Whole

/-! ## Trimming, and line breaks -/

/-- A text that can be a token: it fills one line, without blanks at its ends and without a comment. -/
structure Clean (cs : List Char) : Prop where
  ne_nil : cs ≠ []
  trimmed : trim cs = cs
  one_line : '\n' ∉ cs
  no_comment : ¬ ['-', '-'] <:+: cs

instance (cs : List Char) : Decidable (Clean cs) :=
  decidable_of_iff (cs ≠ [] ∧ trim cs = cs ∧ '\n' ∉ cs ∧ ¬ ['-', '-'] <:+: cs)
    ⟨fun ⟨h, h', h'', h'''⟩ => ⟨h, h', h'', h'''⟩, fun h => ⟨h.ne_nil, h.trimmed, h.one_line, h.no_comment⟩⟩

theorem Mark.clean (m : Mark) : Clean m.text := by
  cases m <;> decide

/-- A text without blanks at its ends. -/
structure Solid (cs : List Char) : Prop where
  ne_nil : cs ≠ []
  trimmed : trim cs = cs

theorem Clean.solid {cs : List Char} (h : Clean cs) : Solid cs := ⟨h.ne_nil, h.trimmed⟩

theorem solid_of_clean {ts : List Token} (h : ∀ t ∈ ts, Clean t.text) : ∀ t ∈ ts, Solid t.text := fun t ht => (h t ht).solid

section Solid
variable {ts : List Token} {cs : List Char}

theorem Solid.head?_not_isSpace (h : Solid cs) : ∀ c ∈ cs.head?, isSpace c = false := (trim_eq_self_iff.1 h.trimmed).1

theorem Solid.getLast?_not_isSpace (h : Solid cs) : ∀ c ∈ cs.getLast?, isSpace c = false :=
  (trim_eq_self_iff.1 h.trimmed).2

theorem Solid.getLast?_ne_break (h : Solid cs) : ∀ c ∈ cs.getLast?, c ≠ '\n' ∧ c ≠ '\r' := by
  intro c hc
  constructor <;> rintro rfl <;> cases h.getLast?_not_isSpace _ hc

theorem Spells.head?_not_isSpace (h : Spells ts cs) (hsolid : ∀ t ∈ ts, Solid t.text) :
    ∀ c ∈ cs.head?, isSpace c = false := by
  cases h with
  | nil => simp
  | @cons t ts gaps rest hgaps hword hrest =>
    have ht := hsolid t (by simp)
    intro c hc
    rw [List.head?_append_of_ne_nil _ ht.ne_nil] at hc
    exact ht.head?_not_isSpace c hc

theorem Spells.head?_not_isGap (h : Spells ts cs) (hsolid : ∀ t ∈ ts, Solid t.text) :
    ∀ c ∈ cs.head?, isGap c = false := fun c hc =>
  isGap_eq_false_of_isSpace (h.head?_not_isSpace hsolid c hc)

theorem Spells.ne_nil (h : Spells ts cs) (hts : ts ≠ []) (hsolid : ∀ t ∈ ts, Solid t.text) : cs ≠ [] := by
  cases h with
  | nil => contradiction
  | @cons t ts gaps rest hgaps hword hrest => simp [(hsolid t (by simp)).ne_nil]

/-- The last gap of a text can be taken off. -/
theorem Spells.without_last_gap (h : Spells ts cs) (hts : ts ≠ []) (hsolid : ∀ t ∈ ts, Solid t.text) :
    ∃ core gaps, AllGaps gaps ∧ cs = core ++ gaps ∧ Spells ts core ∧ ∀ c ∈ core.getLast?, isSpace c = false := by
  induction h with
  | nil => contradiction
  | @cons t ts gaps rest hgaps hword hrest ih =>
    obtain ⟨ht, hts'⟩ := List.forall_mem_cons.1 hsolid
    cases ts with
    | nil =>
      cases hrest
      refine ⟨t.text ++ ([] ++ []), gaps, hgaps, by simp, .cons (by simp [AllGaps]) (fun _ h => by cases h) .nil, ?_⟩
      simpa using ht.getLast?_not_isSpace
    | cons t' ts =>
      obtain ⟨core, gaps', hgaps', rfl, hcore, hlast⟩ := ih (by simp) hts'
      refine ⟨t.text ++ (gaps ++ core), gaps', hgaps', by simp, .cons hgaps hword hcore, ?_⟩
      rw [← List.append_assoc, List.getLast?_append_of_ne_nil _ (hcore.ne_nil (by simp) hts')]
      exact hlast

/-- Trimming takes the gaps around a text off. -/
theorem Printed.trim (h : Printed ts cs) (hts : ts ≠ []) (hsolid : ∀ t ∈ ts, Solid t.text) :
    Spells ts (Text.trim cs) := by
  obtain ⟨before, rest, hbefore, rfl, hrest⟩ := h
  obtain ⟨core, after, hafter, rfl, hcore, hlast⟩ := hrest.without_last_gap hts hsolid
  rw [trim_pad core hbefore.isSpace hafter.isSpace, trim_eq_self_iff.2 ⟨hcore.head?_not_isSpace hsolid, hlast⟩]
  exact hcore

theorem Printed.dropGaps (h : Printed ts cs) (hsolid : ∀ t ∈ ts, Solid t.text) : Spells ts (Text.dropGaps cs) := by
  obtain ⟨gaps, rest, hgaps, rfl, hrest⟩ := h
  have hstart : Text.dropGaps rest = rest := by
    cases hcs : rest with
    | nil => rfl
    | cons c cs => simp [Text.dropGaps, hrest.head?_not_isGap hsolid c (by simp [hcs])]
  rw [Text.dropGaps, List.dropWhile_append_of_pos hgaps, ← Text.dropGaps, hstart]
  exact hrest

theorem trim_printed_word {w : List Char} (h : Printed [word w] cs) (hw : Text.trim w = w) : Text.trim cs = w := by
  obtain ⟨gaps, rest, hgaps, rfl, hrest, -⟩ := h.cons
  exact (trim_pad w hgaps.isSpace hrest.allGaps.isSpace).trans hw

/-! ## Line breaks -/

/-- The token with the line breaks in it unified. -/
def Token.unified : Token → Token
  | mark m => mark m
  | word cs => word (unify cs)

theorem text_unified (t : Token) : t.unified.text = unify t.text := by
  cases t with
  | mark m => cases m <;> rfl
  | word cs => rfl

theorem isWord_unified (t : Token) : t.unified.isWord = t.isWord := by cases t <;> rfl

theorem startsWithWord_unified (ts : List Token) : startsWithWord (ts.map Token.unified) = startsWithWord ts := by
  cases ts with
  | nil => rfl
  | cons t ts => exact isWord_unified t

theorem unified_of_clean {t : Token} (h : Clean t.text) : t.unified = t := by
  cases t with
  | mark m => rfl
  | word cs => exact congrArg word (unify_line h.one_line h.solid.getLast?_ne_break)

theorem Spells.unify (h : Spells ts cs) (hsolid : ∀ t ∈ ts, Solid t.text) :
    Spells (ts.map Token.unified) (unify cs) := by
  induction h with
  | nil => exact .nil
  | @cons t ts gaps rest hgaps hword hrest ih =>
    obtain ⟨ht, hts⟩ := List.forall_mem_cons.1 hsolid
    obtain ⟨gaps', hgaps', hunify, hne⟩ := unify_gaps hgaps (hrest.head?_not_isGap hts)
    rw [unify_append ht.ne_nil ht.getLast?_ne_break, hunify, ← text_unified, List.map_cons]
    refine .cons hgaps' (fun htw htsw => ?_) (ih hts)
    rw [isWord_unified] at htw
    rw [startsWithWord_unified] at htsw
    refine hne (hword htw htsw) (hrest.ne_nil ?_ hts)
    rintro rfl
    cases htsw

/-- Of tokens without comments, only the line breaks change. -/
theorem Printed.unify (h : Printed ts cs) (hsolid : ∀ t ∈ ts, Solid t.text)
    (hcomment : ∀ t ∈ ts, ¬ ['-', '-'] <:+: t.text) : Printed (ts.map Token.unified) (stripComments cs) := by
  rw [stripComments_eq (h.no_comment hcomment)]
  obtain ⟨gaps, rest, hgaps, rfl, hrest⟩ := h
  obtain ⟨gaps', hgaps', hunify, -⟩ := unify_gaps hgaps (hrest.head?_not_isGap hsolid)
  exact ⟨gaps', _, hgaps', hunify, hrest.unify hsolid⟩

theorem Printed.stripComments (h : Printed ts cs) (hclean : ∀ t ∈ ts, Clean t.text) :
    Printed ts (stripComments cs) := by
  have hunify := h.unify (solid_of_clean hclean) fun t ht => (hclean t ht).no_comment
  rwa [List.map_congr_left fun t ht => unified_of_clean (hclean t ht), List.map_id'] at hunify

end Solid

end CoreForge.Entity
