import CoreForge.Entity.Declaration
import CoreForge.Proofs.Printing
/-!
# Printed entries

An entry of a clause is printed as its names, a colon, and what is declared of them. The
entries of a printed clause are told apart by the semicolons outside of parentheses, and
each is read as it was written: `readAll` gives one generic, or one port, for each name.
-/

namespace CoreForge.Entity

open CoreForge.Text Token

/-! ## What is declared -/

/-- A name that is no keyword of a clause. -/
structure PlainName where
  text : List Char
  identifier : isIdentifier text = true
  not_port : text.map Char.toLower ≠ "port".toList
  not_generic : text.map Char.toLower ≠ "generic".toList

/-- A text that a clause can hold: it takes one line, its parentheses match, and nothing in it
ends an entry, starts a clause or starts a comment. -/
structure PlainText where
  text : List Char
  clean : Clean text
  closed : Closed text
  no_port : ¬ HasWord "port".toList text
  no_generic : ¬ HasWord "generic".toList text

/-- A text that is found to be one. -/
def PlainText.checked (text : List Char) (clean : Clean text) (closed : Closed text)
    (hport : words "port".toList none text = []) (hgeneric : words "generic".toList none text = []) : PlainText :=
  ⟨text, clean, closed, not_hasWord (by decide) hport, not_hasWord (by decide) hgeneric⟩

/-- The text of a type, in which no default starts. -/
structure PlainType extends PlainText where
  no_assign : ¬ [':', '='] <:+: text

/-- An entry of a generic clause. -/
structure GenericEntry where
  names : List PlainName
  names_ne_nil : names ≠ []
  type : PlainType
  default : Option PlainText

/-- An entry of a port clause. The default of a port is not kept. -/
structure PortEntry where
  names : List PlainName
  names_ne_nil : names ≠ []
  direction : Direction
  type : PlainType
  default : Option PlainText

/-- The generics of an entry, one for each name. -/
def GenericEntry.declared (g : GenericEntry) : List GenericDecl :=
  g.names.map fun n => ⟨String.ofList n.text, String.ofList g.type.text, g.default.map fun d => String.ofList d.text⟩

/-- The ports of an entry, one for each name. -/
def PortEntry.declared (p : PortEntry) : List PortDecl :=
  p.names.map fun n => ⟨String.ofList n.text, p.direction, String.ofList p.type.text, inferWidth p.type.text⟩

/-! ## How it is printed -/

/-- Names with commas between them. -/
def nameTokens (names : List PlainName) : List Token := [mark .comma].intercalate (names.map fun n => [word n.text])

/-- A default behind its mark. -/
def defaultTokens : Option PlainText → List Token
  | none => []
  | some d => [mark .assign, word d.text]

def GenericEntry.tokens (g : GenericEntry) : List Token :=
  nameTokens g.names ++ mark .colon :: word g.type.text :: defaultTokens g.default

def PortEntry.tokens (p : PortEntry) : List Token :=
  nameTokens p.names ++ mark .colon :: word p.direction.name.toList :: word p.type.text :: defaultTokens p.default

/-- Entries with semicolons between them. -/
def bodyTokens (entries : List (List Token)) : List Token := [mark .semicolon].intercalate entries

/-! ## Tokens inside of an entry -/

/-- A token that can stand in an entry. -/
structure Inner (t : Token) : Prop where
  clean : Clean t.text
  closed : Closed t.text
  no_port : words "port".toList none t.text = []
  no_generic : words "generic".toList none t.text = []

/-- The tokens can stand in entries. -/
def AllInner (entries : List (List Token)) : Prop := ∀ ts ∈ entries, ∀ t ∈ ts, Inner t

theorem inner_comma : Inner (mark .comma) := ⟨Mark.clean .comma, by decide, by decide, by decide⟩

theorem inner_colon : Inner (mark .colon) := ⟨Mark.clean .colon, by decide, by decide, by decide⟩

theorem inner_assign : Inner (mark .assign) := ⟨Mark.clean .assign, by decide, by decide, by decide⟩

theorem clean_of_isIdentifier {name : List Char} (h : isIdentifier name = true) : Clean name := by
  have hchars := all_isIdentChar h
  refine ⟨ne_nil_of_isIdentifier h, trim_of_isIdentifier h, fun hmem => ?_, fun hwithin => ?_⟩
  · cases hchars _ hmem
  · cases hchars '-' (hwithin.subset (by simp))

theorem not_mem_of_isIdentifier {name : List Char} (h : isIdentifier name = true) {c : Char} (hc : isIdentChar c = false) :
    c ∉ name := by
  intro hmem
  rw [all_isIdentChar h c hmem] at hc
  cases hc

theorem closed_of_isIdentifier {name : List Char} (h : isIdentifier name = true) : Closed name := by
  refine closed_of_plain fun c hc => ?_
  have hident := all_isIdentChar h c hc
  refine ⟨?_, ?_, ?_⟩ <;> rintro rfl <;> cases hident

theorem Inner.solid {t : Token} (h : Inner t) : Solid t.text := h.clean.solid

theorem PlainName.inner (n : PlainName) : Inner (word n.text) :=
  ⟨clean_of_isIdentifier n.identifier, closed_of_isIdentifier n.identifier, words_of_isIdentifier n.identifier n.not_port,
    words_of_isIdentifier n.identifier n.not_generic⟩

theorem PlainText.inner (d : PlainText) : Inner (word d.text) :=
  ⟨d.clean, d.closed, words_eq_nil d.no_port, words_eq_nil d.no_generic⟩

theorem isIdentifier_direction (d : Direction) : isIdentifier d.name.toList = true := by cases d <;> decide

theorem inner_direction (d : Direction) : Inner (word d.name.toList) := by
  have hidentifier := isIdentifier_direction d
  refine ⟨clean_of_isIdentifier hidentifier, closed_of_isIdentifier hidentifier, ?_, ?_⟩ <;> cases d <;> decide

theorem forall_mem_intercalate {P : Token → Prop} {sep : Token} (hsep : P sep) {tss : List (List Token)}
    (h : ∀ ts ∈ tss, ∀ t ∈ ts, P t) : ∀ t ∈ [sep].intercalate tss, P t := by
  induction tss with
  | nil => simp
  | cons ts tss ih =>
    obtain ⟨hts, htss⟩ := List.forall_mem_cons.1 h
    cases tss with
    | nil => simpa using hts
    | cons us tss =>
      rw [List.intercalate_cons_cons, List.append_assoc]
      exact List.forall_mem_append.2 ⟨hts, List.forall_mem_append.2 ⟨by simpa using hsep, ih htss⟩⟩

theorem inner_nameTokens (names : List PlainName) : ∀ t ∈ nameTokens names, Inner t := by
  refine forall_mem_intercalate inner_comma fun ts hts => ?_
  obtain ⟨n, -, rfl⟩ := List.mem_map.1 hts
  simpa using n.inner

theorem inner_defaultTokens (d : Option PlainText) : ∀ t ∈ defaultTokens d, Inner t := by
  cases d with
  | none => simp [defaultTokens]
  | some d => simpa [defaultTokens] using ⟨inner_assign, d.inner⟩

theorem GenericEntry.inner (g : GenericEntry) : ∀ t ∈ g.tokens, Inner t := by
  refine List.forall_mem_append.2 ⟨inner_nameTokens _, ?_⟩
  simpa using ⟨inner_colon, g.type.inner, inner_defaultTokens g.default⟩

theorem PortEntry.inner (p : PortEntry) : ∀ t ∈ p.tokens, Inner t := by
  refine List.forall_mem_append.2 ⟨inner_nameTokens _, ?_⟩
  simpa using ⟨inner_colon, inner_direction p.direction, p.type.inner, inner_defaultTokens p.default⟩

/-! ## Names -/

theorem names_printed {names : List PlainName} (hne : names ≠ []) {cs : List Char} (h : Printed (nameTokens names) cs) :
    ((pieces ',' cs).map trim).filter isIdentifier = names.map (·.text) := by
  obtain ⟨qs, rfl, hqs⟩ := h.intercalate (by simpa using hne)
  rw [List.forall₂_map_left_iff] at hqs
  have hpieces : qs.map trim = names.map (·.text) ∧ ∀ q ∈ qs, ',' ∉ q := by
    clear h hne
    induction hqs with
    | nil => simp
    | @cons n q names qs hq _ ih =>
      have hcomma : ',' ∉ q := hq.not_mem rfl (by simpa [text] using not_mem_of_isIdentifier n.identifier rfl)
      have htrim : trim q = n.text := trim_printed_word hq n.inner.clean.trimmed
      exact ⟨by rw [List.map_cons, List.map_cons, ih.1, htrim], List.forall_mem_cons.2 ⟨hcomma, ih.2⟩⟩
  have hqs_ne : qs ≠ [] := by
    rintro rfl
    exact hne (List.map_eq_nil_iff.1 hpieces.1.symm)
  rw [show Mark.comma.text = [','] from rfl, pieces_intercalate hqs_ne hpieces.2, hpieces.1, List.filter_eq_self]
  intro name hname
  obtain ⟨n, -, rfl⟩ := List.mem_map.1 hname
  exact n.identifier

/-- The names of an entry end at the first colon, since an identifier has none. -/
theorem entry_printed {names : List PlainName} (hne : names ≠ []) {ts : List Token} {cs : List Char}
    (h : Printed (nameTokens names ++ mark .colon :: ts) cs) :
    ∃ b, Printed ts b ∧ entry? cs = some (names.map (·.text), trim b) := by
  obtain ⟨a, b, rfl, ha, hb⟩ := h.split
  have hcolon : ':' ∉ a := by
    refine ha.not_mem rfl (forall_mem_intercalate (by decide) fun ts hts => ?_)
    obtain ⟨n, -, rfl⟩ := List.mem_map.1 hts
    simpa [text] using not_mem_of_isIdentifier n.identifier rfl
  have hcut : cut? [':'] (a ++ (Mark.colon.text ++ b)) = some (a, b) := by
    refine cut?_append (by simp) (fun hwithin => hcolon ?_) b
    simpa using hwithin.subset (List.mem_singleton_self ':')
  refine ⟨b, hb, ?_⟩
  simp only [ entry?, hcut, Option.bind_eq_bind, Option.bind_some, names_printed hne ha]
  rw [if_neg (by simpa using hne)]

/-! ## Types and defaults -/

theorem not_pair_of_allGaps {gaps : List Char} (h : AllGaps gaps) {x y : Char} (hx : isGap x = false) :
    ¬ [x, y] <:+: gaps := by
  intro hwithin
  rw [h x (hwithin.subset (by simp))] at hx
  cases hx

/-- The mark of a default does not start in the type. -/
theorem no_assign_printed {type cs : List Char} (hassign : ¬ [':', '='] <:+: type) (h : Printed [word type] cs) :
    ¬ [':', '='] <:+: cs ++ [':'] := by
  obtain ⟨before, rest, hbefore, rfl, hrest, -⟩ := h.cons
  have hafter := hrest.allGaps
  have hgap : ∀ {gaps c}, AllGaps gaps → c ∈ gaps → c ≠ ':' ∧ c ≠ '=' := by
    intro gaps c hgaps hc
    have := hgaps c hc
    constructor <;> rintro rfl <;> cases this
  intro hwithin
  -- The two characters stand within one part, or meet where two parts do.
  rcases pair_of_append hwithin with h | h | ⟨-, h⟩
  · rcases pair_of_append h with h | h | ⟨h, -⟩
    · exact not_pair_of_allGaps hbefore rfl h
    · rcases pair_of_append h with h | h | ⟨-, h⟩
      · exact hassign h
      · exact not_pair_of_allGaps hafter rfl h
      · exact (hgap hafter (List.mem_of_mem_head? h)).2 rfl
    · exact (hgap hbefore (List.mem_of_getLast? h)).1 rfl
  · revert h
    decide
  · cases h

/-- A type alone. -/
theorem typeAndDefault_type {type cs : List Char} (htype : trim type = type) (hassign : ¬ [':', '='] <:+: type)
    (h : Printed [word type] cs) : typeAndDefault cs = (type, none) := by
  have hcut : cut? [':', '='] cs = none :=
    (cut?_eq_none_iff (by simp)).2 fun hwithin => no_assign_printed hassign h (hwithin.trans (List.prefix_append cs [':']).isInfix)
  simp [typeAndDefault, hcut, trim_printed_word h htype]

/-- A type ends at the first mark of a default, whatever the default is. -/
theorem typeAndDefault_assign {type default cs : List Char} (htype : trim type = type) (hassign : ¬ [':', '='] <:+: type)
    (hdefault : trim default = default) (h : Printed [word type, mark .assign, word default] cs) :
    typeAndDefault cs = (type, some default) := by
  have hsplit : Printed ([word type] ++ mark .assign :: [word default]) cs := h
  obtain ⟨a, b, rfl, ha, hb⟩ := hsplit.split
  have hcut : cut? [':', '='] (a ++ (Mark.assign.text ++ b)) = some (a, b) :=
    cut?_append (by simp) (no_assign_printed hassign ha) b
  simp [typeAndDefault, hcut, trim_printed_word ha htype, trim_printed_word hb hdefault]

theorem typeAndDefault_printed {type : PlainType} {default : Option PlainText} {cs : List Char}
    (h : Printed (word type.text :: defaultTokens default) cs) :
    typeAndDefault cs = (type.text, default.map (·.text)) := by
  cases default with
  | none => exact typeAndDefault_type type.clean.trimmed type.no_assign h
  | some d => exact typeAndDefault_assign type.clean.trimmed type.no_assign d.clean.trimmed h

/-! ## Directions -/

/-- A gap behind `in` keeps it apart from `inout`, which is tried first. -/
theorem mode_gap (d : Direction) {g : Char} (hg : isGap g = true) (rest : List Char) :
    mode? (d.name.toList ++ g :: rest) = some (d, dropGaps rest) := by
  have hnot : g.toLower ≠ 'o' := by
    simp only [isGap, Bool.or_eq_true, decide_eq_true_eq] at hg
    rcases hg with ((rfl | rfl) | rfl) | rfl <;> decide
  cases d <;> simp [mode?, modes, afterWord?, Direction.name, dropGaps1?, hg, hnot]

theorem mode_printed {d : Direction} {w : List Char} {ts : List Token} {cs : List Char}
    (h : Spells (word d.name.toList :: word w :: ts) cs) (hsolid : ∀ t ∈ word w :: ts, Solid t.text) :
    ∃ rest, Printed (word w :: ts) rest ∧ mode? cs = some (d, rest) := by
  cases h with
  | @cons _ _ gaps rest hgaps hword hrest =>
    cases gaps with
    | nil => exact absurd rfl (hword rfl rfl)
    | cons g gaps =>
      obtain ⟨hg, hgaps⟩ := List.forall_mem_cons.1 hgaps
      have hprinted : Printed (word w :: ts) (gaps ++ rest) := ⟨gaps, rest, hgaps, rfl, hrest⟩
      exact ⟨_, (hprinted.dropGaps hsolid).printed, mode_gap d hg (gaps ++ rest)⟩

/-! ## Clauses -/

/-- The pieces of a body are its entries, since no semicolon stands outside of parentheses in one. -/
theorem splitTopLevel_printed {entries : List (List Token)} (hne : entries ≠ []) {body : List Char}
    (hentries : ∀ ts ∈ entries, ts ≠ [] ∧ ∀ t ∈ ts, Solid t.text ∧ Closed t.text) (h : Printed (bodyTokens entries) body) :
    List.Forall₂ Printed entries (splitTopLevel ';' body) := by
  obtain ⟨qs, rfl, hqs⟩ := h.intercalate hne
  have hqs_ne : qs ≠ [] := by
    rintro rfl
    exact hne (List.forall₂_nil_right_iff.1 hqs)
  -- Each piece is in one, has something in it, and spells its entry.
  have hpieces : (∀ q ∈ qs, Closed q) ∧ (∀ q ∈ qs, trim q ≠ []) ∧
      List.Forall₂ Printed entries (qs.map trim) := by
    clear h hne hqs_ne
    induction hqs with
    | nil => simp
    | @cons ts q entries qs hq _ ih =>
      obtain ⟨⟨hts, htokens⟩, hrest⟩ := List.forall_mem_cons.1 hentries
      obtain ⟨hclosed, hfull, hprinted⟩ := ih hrest
      have hsolid : ∀ t ∈ ts, Solid t.text := fun t ht => (htokens t ht).1
      have htrim : Spells ts (trim q) := hq.trim hts hsolid
      exact ⟨List.forall_mem_cons.2 ⟨hq.closed fun t ht => (htokens t ht).2, hclosed⟩,
        List.forall_mem_cons.2 ⟨htrim.ne_nil hts hsolid, hfull⟩, .cons htrim.printed hprinted⟩
  obtain ⟨hclosed, hfull, hprinted⟩ := hpieces
  rw [show Mark.semicolon.text = [';'] from rfl, splitTopLevel_intercalate hqs_ne hclosed,
    List.filter_eq_self.2 (by simpa using hfull)]
  exact hprinted

theorem flatMap_of_forall₂ {α β γ : Type} {R : α → β → Prop} {f : β → List γ} {g : α → List γ} {as : List α}
    {bs : List β} (hfg : ∀ a b, R a b → f b = g a) (h : List.Forall₂ R as bs) : bs.flatMap f = as.flatMap g := by
  induction h with
  | nil => rfl
  | cons hab _ ih => rw [List.flatMap_cons, List.flatMap_cons, hfg _ _ hab, ih]

theorem GenericEntry.tokens_ne_nil (g : GenericEntry) : g.tokens ≠ [] := by simp [tokens]

theorem PortEntry.tokens_ne_nil (p : PortEntry) : p.tokens ≠ [] := by simp [tokens]

theorem GenericDecl.readAll_printed {gs : List GenericEntry} (hne : gs ≠ []) {body : List Char}
    (h : Printed (bodyTokens (gs.map GenericEntry.tokens)) body) : readAll body = gs.flatMap GenericEntry.declared := by
  have hentries := splitTopLevel_printed (by simpa using hne)
    (List.forall_mem_map.2 fun g _ => ⟨g.tokens_ne_nil, fun t ht => ⟨(g.inner t ht).solid, (g.inner t ht).closed⟩⟩) h
  refine flatMap_of_forall₂ (fun g piece hpiece => ?_) (List.forall₂_map_left_iff.1 hentries)
  obtain ⟨b, hb, hentry⟩ := entry_printed g.names_ne_nil hpiece
  have htrim := hb.trim (by simp) fun t ht =>
    (List.forall_mem_cons.2 ⟨g.type.inner, inner_defaultTokens g.default⟩ t ht).solid
  simp [hentry, typeAndDefault_printed htrim.printed, GenericEntry.declared, Function.comp_def]

theorem PortDecl.readAll_printed {ps : List PortEntry} (hne : ps ≠ []) {body : List Char}
    (h : Printed (bodyTokens (ps.map PortEntry.tokens)) body) : readAll body = ps.flatMap PortEntry.declared := by
  have hentries := splitTopLevel_printed (by simpa using hne)
    (List.forall_mem_map.2 fun p _ => ⟨p.tokens_ne_nil, fun t ht => ⟨(p.inner t ht).solid, (p.inner t ht).closed⟩⟩) h
  refine flatMap_of_forall₂ (fun p piece hpiece => ?_) (List.forall₂_map_left_iff.1 hentries)
  obtain ⟨b, hb, hentry⟩ := entry_printed p.names_ne_nil hpiece
  have htail : ∀ t ∈ word p.type.text :: defaultTokens p.default, Solid t.text := fun t ht =>
    (List.forall_mem_cons.2 ⟨p.type.inner, inner_defaultTokens p.default⟩ t ht).solid
  have htrim := hb.trim (by simp) (List.forall_mem_cons.2 ⟨(inner_direction p.direction).solid, htail⟩)
  obtain ⟨rest, hrest, hmode⟩ := mode_printed htrim htail
  simp [hentry, hmode, typeAndDefault_printed hrest, p.type.clean.ne_nil, PortEntry.declared, Function.comp_def]

end CoreForge.Entity
