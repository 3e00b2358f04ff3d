import CoreForge.Proofs.Declarations
/-!
# String literals

A literal is characters like any others: comments are removed, parentheses counted, and entries
and clauses told apart without regard to quotes. A literal in which none of these searches
finds anything is read whole (`parse_literals`), and one in which one of them does is not.
-/

namespace CoreForge.Entity

open CoreForge.Text Token

/-! ## What is declared -/

/-- A generic whose default is a literal. -/
structure StringEntry where
  name : List Char
  identifier : isIdentifier name = true
  literal : List Char
  one_line : '\n' ∉ literal
  no_quote : '"' ∉ literal

/-- A port without a default, whose type may go over several lines. -/
structure SignalEntry where
  name : List Char
  identifier : isIdentifier name = true
  direction : Direction
  type : List Char
  solid : Solid type
  closed : Closed type
  no_assign : ¬ [':', '='] <:+: type
  no_comment : ¬ ['-', '-'] <:+: type

/-- An entity with both clauses. Its names can be any identifiers, keywords as well. -/
structure StringDeclaration where
  name : List Char
  identifier : isIdentifier name = true
  generics : List StringEntry
  generics_ne_nil : generics ≠ []
  ports : List SignalEntry
  ports_ne_nil : ports ≠ []

def quoted (literal : List Char) : List Char := '"' :: (literal ++ ['"'])

def StringEntry.declared (g : StringEntry) : GenericDecl :=
  ⟨String.ofList g.name, "string", some (String.ofList (quoted g.literal))⟩

/-- A type is read with its line breaks unified. -/
def SignalEntry.declared (p : SignalEntry) : PortDecl :=
  ⟨String.ofList p.name, p.direction, String.ofList (unify p.type), inferWidth (unify p.type)⟩

def StringEntry.tokens (g : StringEntry) : List Token :=
  [word g.name, mark .colon, word "string".toList, mark .assign, word (quoted g.literal)]

def SignalEntry.tokens (p : SignalEntry) : List Token :=
  [word p.name, mark .colon, word p.direction.name.toList, word p.type]

def StringDeclaration.clauses (d : StringDeclaration) : List Token :=
  clauseTokens "generic" (d.generics.map StringEntry.tokens) ++ clauseTokens "port" (d.ports.map SignalEntry.tokens)

def StringDeclaration.tokens (d : StringDeclaration) : List Token :=
  word "entity".toList :: word d.name :: word "is".toList :: (d.clauses ++ [word "end".toList, mark .semicolon])

/-- The text is read as it was written. -/
def ReadAsWritten (d : StringDeclaration) (source : List Char) (detect : Bool) : Prop :=
  ∃ e, parse source detect = .ok e ∧ e.name = String.ofList d.name ∧ e.generics = d.generics.map StringEntry.declared ∧
    e.ports.map (·.port) = d.ports.map SignalEntry.declared

/-- No search of the reading finds anything in the literal. -/
structure Unnoticed (literal : List Char) : Prop where
  closed : Closed literal
  no_comment : ¬ ['-', '-'] <:+: literal
  no_clause : OpensNone "port".toList literal

/-! ## Tokens -/

theorem solid_of_isIdentifier {name : List Char} (h : isIdentifier name = true) : Solid name :=
  (clean_of_isIdentifier h).solid

theorem solid_quoted (literal : List Char) : Solid (quoted literal) := by
  refine ⟨by simp [quoted], trim_eq_self_iff.2 ⟨?_, ?_⟩⟩
  · rintro c hc
    cases hc
    rfl
  · intro c hc
    rw [quoted, ← List.cons_append, List.getLast?_concat] at hc
    cases hc
    rfl

theorem noGroup_quoted {literal : List Char} (h : Unnoticed literal) : NoGroup "port".toList (quoted literal) := by
  have hquote : OpensNone "port".toList ['"'] := opensNone_of_not_mem (by simp)
  have hrest : OpensNone "port".toList (literal ++ ['"']) :=
    h.no_clause.append isIdentifier_port (.inr rfl) hquote (by decide)
  exact ⟨hrest.behind isIdentifier_port (a := ['"']) (.inl rfl) (by decide), by simp [quoted, dropGaps, isGap]⟩

theorem StringEntry.solid (g : StringEntry) : ∀ t ∈ g.tokens, Solid t.text := by
  have hstring : Solid "string".toList := solid_of_isIdentifier (by decide)
  simpa [tokens] using ⟨solid_of_isIdentifier g.identifier, (Mark.clean .colon).solid, hstring,
    (Mark.clean .assign).solid, solid_quoted g.literal⟩

theorem StringEntry.closed {g : StringEntry} (h : Unnoticed g.literal) : ∀ t ∈ g.tokens, Closed t.text := by
  have hquote : Closed ['"'] := by decide
  have hquoted : Closed (quoted g.literal) := hquote.append (h.closed.append hquote)
  have hcolon : Closed (mark .colon).text := by decide
  have hassign : Closed (mark .assign).text := by decide
  have hstring : Closed "string".toList := by decide
  simpa [tokens] using ⟨closed_of_isIdentifier g.identifier, hcolon, hstring, hassign, hquoted⟩

theorem SignalEntry.solid_tokens (p : SignalEntry) : ∀ t ∈ p.tokens, Solid t.text := by
  simpa [tokens] using ⟨solid_of_isIdentifier p.identifier, (Mark.clean .colon).solid,
    solid_of_isIdentifier (isIdentifier_direction p.direction), p.solid⟩

theorem SignalEntry.closed_tokens (p : SignalEntry) : ∀ t ∈ p.tokens, Closed t.text := by
  have hcolon : Closed (mark .colon).text := by decide
  simpa [tokens] using ⟨closed_of_isIdentifier p.identifier, hcolon,
    closed_of_isIdentifier (isIdentifier_direction p.direction), p.closed⟩

theorem noGroup_identifier {keyword name : List Char} (h : isIdentifier name = true) : NoGroup keyword name :=
  noGroup_of_not_mem (not_mem_of_isIdentifier h rfl)

theorem StringEntry.noGroup {g : StringEntry} (h : Unnoticed g.literal) :
    ∀ t ∈ g.tokens, NoGroup "port".toList t.text := by
  have hcolon : NoGroup "port".toList (mark .colon).text := noGroup_of_not_mem (by decide)
  have hassign : NoGroup "port".toList (mark .assign).text := noGroup_of_not_mem (by decide)
  have hstring : NoGroup "port".toList "string".toList := noGroup_identifier (by decide)
  simpa [tokens] using ⟨noGroup_identifier g.identifier, hcolon, hstring, hassign, noGroup_quoted h⟩

/-! ## Entries -/

theorem entry_word {name : List Char} (hname : isIdentifier name = true) {ts : List Token} {cs : List Char}
    (h : Printed (word name :: mark .colon :: ts) cs) : ∃ b, Printed ts b ∧ entry? cs = some ([name], trim b) := by
  have hsplit : Printed ([word name] ++ mark .colon :: ts) cs := h
  obtain ⟨a, b, rfl, ha, hb⟩ := hsplit.split
  have hno : ∀ c, isIdentChar c = false → isGap c = false → c ∉ a := fun c hc hgap =>
    ha.not_mem hgap (by simpa [text] using not_mem_of_isIdentifier hname hc)
  have hcut : cut? [':'] (a ++ (Mark.colon.text ++ b)) = some (a, b) := by
    refine cut?_append (by simp) (fun hwithin => hno ':' rfl rfl ?_) b
    simpa using hwithin.subset (List.mem_singleton_self ':')
  have hpieces : pieces ',' a = [a] := by
    have happend := pieces_append (hno ',' rfl rfl) []
    rw [List.append_nil] at happend
    rw [happend]
    simp [pieces, onFirst]
  refine ⟨b, hb, ?_⟩
  simp [ entry?, hcut, hpieces, trim_printed_word ha (trim_of_isIdentifier hname), hname]

theorem generics_readAll {gs : List StringEntry} (hne : gs ≠ []) (hplain : ∀ g ∈ gs, Unnoticed g.literal)
    {body : List Char} (h : Printed (bodyTokens (gs.map StringEntry.tokens)) body) :
    GenericDecl.readAll body = gs.map StringEntry.declared := by
  have hentries := splitTopLevel_printed (by simpa using hne) (List.forall_mem_map.2 fun g hg =>
    ⟨by simp [StringEntry.tokens], fun t ht => ⟨g.solid t ht, StringEntry.closed (hplain g hg) t ht⟩⟩) h
  rw [List.map_eq_flatMap]
  refine flatMap_of_forall₂ (fun g piece hpiece => ?_) (List.forall₂_map_left_iff.1 hentries)
  obtain ⟨b, hb, hentry⟩ := entry_word g.identifier hpiece
  have htrim : Spells [word "string".toList, mark .assign, word (quoted g.literal)] (trim b) :=
    hb.trim (by simp) fun t ht => g.solid t (by simp_all [StringEntry.tokens])
  have hread := typeAndDefault_assign (by decide) (by decide) (solid_quoted g.literal).trimmed htrim.printed
  simp [hentry, hread, StringEntry.declared]

theorem ports_readAll {ps : List SignalEntry} (hne : ps ≠ []) {body : List Char}
    (h : Printed (bodyTokens (ps.map SignalEntry.tokens)) body) :
    PortDecl.readAll body = ps.map fun p => ⟨String.ofList p.name, p.direction, String.ofList p.type, inferWidth p.type⟩ := by
  have hentries := splitTopLevel_printed (by simpa using hne) (List.forall_mem_map.2 fun p _ =>
    ⟨by simp [SignalEntry.tokens], fun t ht => ⟨p.solid_tokens t ht, p.closed_tokens t ht⟩⟩) h
  rw [List.map_eq_flatMap]
  refine flatMap_of_forall₂ (fun p piece hpiece => ?_) (List.forall₂_map_left_iff.1 hentries)
  obtain ⟨b, hb, hentry⟩ := entry_word p.identifier hpiece
  have htrim := hb.trim (by simp) fun t ht => p.solid_tokens t (by simp_all [SignalEntry.tokens])
  obtain ⟨rest, hrest, hmode⟩ := mode_printed htrim (by simpa [text] using p.solid)
  have hread := typeAndDefault_type p.solid.trimmed p.no_assign hrest
  simp [hentry, hmode, hread, p.solid.ne_nil]

/-! ## Clauses -/

section Clauses
variable {d : StringDeclaration} {cs : List Char}

theorem closed_generics (hplain : ∀ g ∈ d.generics, Unnoticed g.literal) :
    AllClosed (d.generics.map StringEntry.tokens) :=
  List.forall_mem_map.2 fun g hg => StringEntry.closed (hplain g hg)

theorem closed_ports (d : StringDeclaration) : AllClosed (d.ports.map SignalEntry.tokens) :=
  List.forall_mem_map.2 fun p _ => p.closed_tokens

theorem noEnd_string (hplain : ∀ g ∈ d.generics, Unnoticed g.literal) (h : Printed d.clauses cs) : NoEnd cs := by
  obtain ⟨a, b, rfl, ha, hb, hab⟩ := h.append
  exact (noEnd_clause isIdentifier_generic (by decide) (closed_generics hplain) ha).append hab
    (noEnd_clause isIdentifier_port (by decide) (closed_ports d) hb.printed)

theorem generics_string (hplain : ∀ g ∈ d.generics, Unnoticed g.literal) (h : Printed d.clauses cs) :
    GenericDecl.readAll (clauseBody "generic".toList cs) = d.generics.map StringEntry.declared := by
  have hnone : ∀ a, Printed [] a → OpensNone "generic".toList a := fun a ha =>
    opensNone_of_words (ha.words_eq_nil isIdentifier_generic (lacks_nil _))
  refine generics_readAll d.generics_ne_nil hplain ?_
  exact clauseBody_behind isIdentifier_generic (by decide) (by simpa using d.generics_ne_nil) (closed_generics hplain)
    (List.forall_mem_map.2 fun g _ => g.solid) hnone h

/-- What stands before the ports opens no group behind `port`. -/
theorem opensNone_generics (hplain : ∀ g ∈ d.generics, Unnoticed g.literal)
    (h : Printed (clauseTokens "generic" (d.generics.map StringEntry.tokens)) cs) : OpensNone "port".toList cs := by
  rw [← List.append_nil (clauseTokens _ _), clauseTokens_append (by simpa using d.generics_ne_nil)] at h
  have hsplit : Printed ([word "generic".toList] ++ mark .openParen ::
      (bodyTokens (d.generics.map StringEntry.tokens) ++ [mark .closeParen, mark .semicolon])) cs := h
  obtain ⟨before, rest, rfl, hbefore, hrest⟩ := hsplit.split
  have hmark : ∀ m, m ≠ Mark.openParen → NoGroup "port".toList (mark m).text := fun m hm =>
    noGroup_of_not_mem (by cases m <;> first | exact absurd rfl hm | decide)
  have hrest : NoGroup "port".toList rest := by
    refine noGroup_printed isIdentifier_port hrest (List.forall_mem_append.2 ⟨?_, ?_⟩)
    · exact forall_mem_intercalate (P := fun t => NoGroup "port".toList t.text) (hmark .semicolon (by decide))
        (List.forall_mem_map.2 fun g hg => StringEntry.noGroup (hplain g hg))
    · simpa using ⟨hmark .closeParen (by decide), hmark .semicolon (by decide)⟩
  have hword : words "port".toList none "generic".toList = [] := by decide
  have hbefore : words "port".toList none before = [] :=
    hbefore.words_eq_nil isIdentifier_port (List.forall_mem_singleton.2 hword)
  have hparen : OpensNone "port".toList (Mark.openParen.text ++ rest) :=
    hrest.inside.behind isIdentifier_port (.inl rfl) (by decide)
  exact hparen.behind isIdentifier_port (.inr rfl) hbefore

theorem ports_string (hplain : ∀ g ∈ d.generics, Unnoticed g.literal) (h : Printed d.clauses cs) :
    PortDecl.readAll (clauseBody "port".toList cs) =
      d.ports.map fun p => ⟨String.ofList p.name, p.direction, String.ofList p.type, inferWidth p.type⟩ := by
  rw [StringDeclaration.clauses, ← List.append_nil (clauseTokens "port" _)] at h
  refine ports_readAll d.ports_ne_nil ?_
  exact clauseBody_behind isIdentifier_port (by decide) (by simpa using d.ports_ne_nil) (closed_ports d)
    (List.forall_mem_map.2 fun p _ => p.solid_tokens) (fun _ ha => opensNone_generics hplain ha) h

end Clauses

/-! ## Line breaks -/

theorem solid_unify {cs : List Char} (h : Solid cs) : Solid (unify cs) := by
  cases cs with
  | nil => exact absurd rfl h.ne_nil
  | cons c cs =>
    have hc : isSpace c = false := h.head?_not_isSpace c rfl
    have hfeed : c ≠ '\n' := by
      rintro rfl
      cases hc
    have hreturn : c ≠ '\r' := by
      rintro rfl
      cases hc
    have hunify : unify (c :: cs) = c :: unify cs := unify_cons hfeed (absurd · hreturn)
    refine ⟨by simp [hunify], trim_eq_self_iff.2 ⟨by simpa [hunify] using hc, ?_⟩⟩
    obtain ⟨d, hd⟩ := Option.isSome_iff_exists.1 (List.getLast?_isSome.2 (List.cons_ne_nil c cs))
    rw [getLast?_unify (h.getLast?_ne_break d hd).1 _ hd, ← hd]
    exact h.getLast?_not_isSpace

theorem depthAfter?_unify (n : Nat) (cs : List Char) :
    depthAfter? (some ';') n (unify cs) = depthAfter? (some ';') n cs := by
  induction cs using unify_induction generalizing n with
  | nil => rfl
  | last => simp [depthAfter?]
  | feed c cs ih => simpa [depthAfter?] using ih n
  | ret cs ih => simpa [depthAfter?] using ih n
  | other c cs _ ih => simp only [depthAfter?, ih]

/-- The port as it is read. -/
def SignalEntry.unified (p : SignalEntry) : SignalEntry :=
  { p with
    type := unify p.type
    solid := solid_unify p.solid
    closed := (depthAfter?_unify 0 p.type).trans p.closed
    no_assign := fun h => p.no_assign (pair_of_unify (by decide) (by decide) h)
    no_comment := fun h => p.no_comment (pair_of_unify (by decide) (by decide) h) }

def StringDeclaration.unified (d : StringDeclaration) : StringDeclaration :=
  { d with
    ports := d.ports.map SignalEntry.unified
    ports_ne_nil := by simpa using d.ports_ne_nil }

theorem unified_identifier {name : List Char} (h : isIdentifier name = true) : (word name).unified = word name :=
  unified_of_clean (clean_of_isIdentifier h)

theorem StringEntry.tokens_unified (g : StringEntry) : g.tokens.map Token.unified = g.tokens := by
  have hliteral : unify (quoted g.literal) = quoted g.literal :=
    unify_line (by simp [quoted, g.one_line]) (solid_quoted g.literal).getLast?_ne_break
  have hquoted : (word (quoted g.literal)).unified = word (quoted g.literal) := congrArg word hliteral
  have hstring : (word "string".toList).unified = word "string".toList := unified_identifier (by decide)
  simp only [tokens, List.map_cons, List.map_nil, unified_identifier g.identifier, hstring, hquoted]
  rfl

theorem SignalEntry.tokens_unified (p : SignalEntry) : p.tokens.map Token.unified = p.unified.tokens := by
  simp only [tokens, List.map_cons, List.map_nil, unified_identifier p.identifier,
    unified_identifier (isIdentifier_direction p.direction)]
  rfl

theorem bodyTokens_unified (entries : List (List Token)) :
    (bodyTokens entries).map Token.unified = bodyTokens (entries.map (·.map Token.unified)) := by
  unfold bodyTokens
  induction entries with
  | nil => rfl
  | cons ts entries ih =>
    cases entries with
    | nil => simp
    | cons us entries =>
      rw [List.intercalate_cons_cons, List.map_append, List.map_append, ih]
      simp only [List.map_cons, List.intercalate_cons_cons]
      rfl

theorem clauseTokens_unified {keyword : String} (hk : isIdentifier keyword.toList = true) (entries : List (List Token)) :
    (clauseTokens keyword entries).map Token.unified = clauseTokens keyword (entries.map (·.map Token.unified)) := by
  unfold clauseTokens
  by_cases hne : entries = []
  · simp [hne]
  · rw [if_neg hne, if_neg (by simpa using hne), ← bodyTokens_unified, List.map_cons, List.map_cons, List.map_append,
      unified_identifier hk]
    rfl

theorem StringDeclaration.tokens_unified (d : StringDeclaration) : d.tokens.map Token.unified = d.unified.tokens := by
  have hgenerics : (d.generics.map StringEntry.tokens).map (·.map Token.unified) = d.generics.map StringEntry.tokens := by
    simp [StringEntry.tokens_unified]
  have hports : (d.ports.map SignalEntry.tokens).map (·.map Token.unified) =
      (d.ports.map SignalEntry.unified).map SignalEntry.tokens := by
    simp [SignalEntry.tokens_unified]
  have his : (word "is".toList).unified = word "is".toList := unified_identifier (by decide)
  simp only [tokens, clauses, List.map_cons, List.map_append, List.map_nil, clauseTokens_unified isIdentifier_generic,
    clauseTokens_unified isIdentifier_port, hgenerics, hports, unified_identifier isIdentifier_entity,
    unified_identifier d.identifier, his, unified_identifier isIdentifier_end]
  rfl

/-! ## Declarations -/

theorem StringDeclaration.forall_mem_tokens {P : Token → Prop} {d : StringDeclaration}
    (hname : ∀ name, isIdentifier name = true → P (word name)) (hmark : ∀ m, P (mark m))
    (hgenerics : ∀ g ∈ d.generics, ∀ t ∈ g.tokens, P t) (hports : ∀ p ∈ d.ports, ∀ t ∈ p.tokens, P t) :
    ∀ t ∈ d.tokens, P t := by
  have hclauses : ∀ t ∈ d.clauses, P t := List.forall_mem_append.2
    ⟨forall_mem_clauseTokens (hname _ isIdentifier_generic) hmark (List.forall_mem_map.2 hgenerics),
      forall_mem_clauseTokens (hname _ isIdentifier_port) hmark (List.forall_mem_map.2 hports)⟩
  have hend : ∀ t ∈ [word "end".toList, mark .semicolon], P t := by
    simpa using ⟨hname _ isIdentifier_end, hmark .semicolon⟩
  simp only [tokens, List.forall_mem_cons]
  exact ⟨hname _ isIdentifier_entity, hname _ d.identifier, hname _ (by decide), List.forall_mem_append.2 ⟨hclauses, hend⟩⟩

theorem StringDeclaration.solid_tokens (d : StringDeclaration) : ∀ t ∈ d.tokens, Solid t.text :=
  forall_mem_tokens (P := fun t => Solid t.text) (fun _ => solid_of_isIdentifier) (fun m => (Mark.clean m).solid)
    (fun g _ => g.solid) fun p _ => p.solid_tokens

theorem no_comment_quoted {literal : List Char} (h : ¬ ['-', '-'] <:+: literal) : ¬ ['-', '-'] <:+: quoted literal := by
  intro hwithin
  rcases List.infix_cons_iff.1 hwithin with hstarts | hwithin
  · cases (List.cons_prefix_cons.1 hstarts).1
  · rcases pair_of_append hwithin with hwithin | hwithin | ⟨-, hquote⟩
    · exact h hwithin
    · cases List.mem_singleton.1 (hwithin.subset (by simp : '-' ∈ ['-', '-']))
    · cases hquote

theorem StringDeclaration.no_comment {d : StringDeclaration} (hplain : ∀ g ∈ d.generics, Unnoticed g.literal) :
    ∀ t ∈ d.tokens, ¬ ['-', '-'] <:+: t.text := by
  have hname : ∀ name, isIdentifier name = true → ¬ ['-', '-'] <:+: name := fun name h =>
    (clean_of_isIdentifier h).no_comment
  have hcolon := (Mark.clean .colon).no_comment
  refine forall_mem_tokens (P := fun t => ¬ ['-', '-'] <:+: t.text) hname (fun m => (Mark.clean m).no_comment)
    (fun g hg => ?_) fun p _ => ?_
  · have hstring := hname "string".toList (by decide)
    simpa [StringEntry.tokens] using
      ⟨hname _ g.identifier, hcolon, hstring, (Mark.clean .assign).no_comment, no_comment_quoted (hplain g hg).no_comment⟩
  · simpa [SignalEntry.tokens] using
      ⟨hname _ p.identifier, hcolon, hname _ (isIdentifier_direction p.direction), p.no_comment⟩

/-- Literals in which no search finds anything are read whole, whatever the gaps are between the
tokens of the declaration, and so are all of its ports. -/
theorem parse_literals (d : StringDeclaration) (hplain : ∀ g ∈ d.generics, Unnoticed g.literal) {source : List Char}
    (h : Printed d.tokens source) (detect : Bool) : ReadAsWritten d source detect := by
  have hstripped : Printed d.unified.tokens (stripComments source) := by
    rw [← d.tokens_unified]
    exact h.unify d.solid_tokens (StringDeclaration.no_comment hplain)
  have hword : startsWithWord (d.unified.clauses ++ [word "end".toList, mark .semicolon]) = true := by
    simp [StringDeclaration.clauses, clauseTokens_append, d.generics_ne_nil, StringDeclaration.unified, startsWithWord, isWord]
  obtain ⟨rest, hdeclaration, hrest⟩ := declaration?_printed d.unified.identifier hword
    (List.forall_mem_cons.1 d.unified.solid_tokens).2 hstripped
  have hplain' : ∀ g ∈ d.unified.generics, Unnoticed g.literal := hplain
  have hregion := region_printed (fun _ => noEnd_string hplain') hrest
  refine ⟨_, by rw [parse, hdeclaration], rfl, generics_string hplain' hregion, ?_⟩
  simp only [ports_string hplain' hregion, classify]
  simp [StringDeclaration.unified, SignalEntry.unified, SignalEntry.declared, Function.comp_def]

/-- An entity `e` with one generic `n` and one port `p`. -/
def single (literal type : List Char) (hliteral : '\n' ∉ literal ∧ '"' ∉ literal) (solid : Solid type) (closed : Closed type)
    (no_assign : ¬ [':', '='] <:+: type) (no_comment : ¬ ['-', '-'] <:+: type) : StringDeclaration where
  name := ['e']
  identifier := rfl
  generics := [⟨['n'], rfl, literal, hliteral.1, hliteral.2⟩]
  generics_ne_nil := by simp
  ports := [⟨['p'], rfl, .input, type, solid, closed, no_assign, no_comment⟩]
  ports_ne_nil := by simp

def singleBit (literal : List Char) (hliteral : '\n' ∉ literal ∧ '"' ∉ literal) : StringDeclaration :=
  single literal "bit".toList hliteral ⟨by decide, by decide⟩ (by decide) (by decide) (by decide)

theorem parse_literals_keywords :
    let d := single "(a; end): port, x := 1".toList "unsigned\r\n(1 downto 0)".toList (by decide) ⟨by decide, by decide⟩ (by decide)
      (by decide) (by decide)
    (∀ g ∈ d.generics, Unnoticed g.literal) ∧ Printed d.tokens (spaced d.tokens) ∧ ReadAsWritten d (spaced d.tokens) true ∧
      d.generics.map StringEntry.declared = [⟨"n", "string", some "\"(a; end): port, x := 1\""⟩] ∧
      d.ports.map SignalEntry.declared = [⟨"p", .input, "unsigned\n(1 downto 0)", .fixed 2⟩] := by
  intro d
  have hplain : ∀ g ∈ d.generics, Unnoticed g.literal := by
    have hliteral : Unnoticed "(a; end): port, x := 1".toList := ⟨by decide, by decide, by decide⟩
    simpa [d, single] using hliteral
  exact ⟨hplain, printed_spaced _, parse_literals d hplain (printed_spaced _) true, by decide +kernel, by decide +kernel⟩

theorem not_readAsWritten {d : StringDeclaration} {source : List Char} {e : Entity} (h : parse source true = .ok e)
    (hne : e.generics ≠ d.generics.map StringEntry.declared ∨ e.ports.map (·.port) ≠ d.ports.map SignalEntry.declared) :
    ¬ ReadAsWritten d source true := by
  rintro ⟨e', hparse, -, hgenerics, hports⟩
  rw [h] at hparse
  cases hparse
  exact hne.elim (absurd hgenerics) (absurd hports)

/-- A literal ends its entry, starts a comment, closes the clause, or opens one. -/
theorem literals_noticed :
    let noticed (d : StringDeclaration) : Prop :=
      Printed d.tokens (spaced d.tokens) ∧ ¬ ReadAsWritten d (spaced d.tokens) true
    noticed (singleBit "a;b".toList (by decide)) ∧ noticed (singleBit "a--b".toList (by decide)) ∧
      noticed (singleBit ")".toList (by decide)) ∧ noticed (singleBit "port (x : in bit)".toList (by decide)) := by
  refine ⟨⟨printed_spaced _, ?_⟩, ⟨printed_spaced _, ?_⟩, ⟨printed_spaced _, ?_⟩, ⟨printed_spaced _, ?_⟩⟩
  · have hparse : parse (spaced (singleBit "a;b".toList (by decide)).tokens) true =
        .ok ⟨"e", [⟨"n", "string", some "\"a"⟩], [⟨⟨"p", .input, "bit", .scalar⟩, .user "P"⟩], []⟩ := by decide +kernel
    exact not_readAsWritten hparse (.inl (by decide +kernel))
  · have hparse : parse (spaced (singleBit "a--b".toList (by decide)).tokens) true = .ok ⟨"e", [], [], []⟩ := by
      decide +kernel
    exact not_readAsWritten hparse (.inl (by decide +kernel))
  · have hparse : parse (spaced (singleBit ")".toList (by decide)).tokens) true =
        .ok ⟨"e", [⟨"n", "string", some "\""⟩], [⟨⟨"p", .input, "bit", .scalar⟩, .user "P"⟩], []⟩ := by decide +kernel
    exact not_readAsWritten hparse (.inl (by decide +kernel))
  · have hparse : parse (spaced (singleBit "port (x : in bit)".toList (by decide)).tokens) true =
        .ok ⟨"e", [⟨"n", "string", some "\"port (x : in bit)\""⟩], [⟨⟨"x", .input, "bit", .scalar⟩, .user "X"⟩], []⟩ := by
      decide +kernel
    exact not_readAsWritten hparse (.inr (by decide +kernel))

end CoreForge.Entity
