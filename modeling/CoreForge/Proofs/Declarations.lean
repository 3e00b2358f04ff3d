import CoreForge.Proofs.Entries
import CoreForge.Proofs.Groups
/-!
# Printed declarations

An entity is printed as its header, its clauses and its `end`. Reading finds these parts by
their keywords: the first `entity` is the one of the header, `end` closes the declaration at
the first place outside of parentheses, and a clause is the group behind its keyword, which
stands nowhere else. So what was printed is what is read (`parse_printed`).
-/

namespace CoreForge.Entity

open CoreForge.Text Token

structure Declaration where
  name : PlainName
  generics : List GenericEntry
  ports : List PortEntry

/-- The tokens of a clause, which is left out when it has no entries. -/
def clauseTokens (keyword : String) (entries : List (List Token)) : List Token :=
  if entries = [] then []
  else word keyword.toList :: mark .openParen :: (bodyTokens entries ++ [mark .closeParen, mark .semicolon])

def Declaration.clauses (d : Declaration) : List Token :=
  clauseTokens "generic" (d.generics.map GenericEntry.tokens) ++ clauseTokens "port" (d.ports.map PortEntry.tokens)

def Declaration.tokens (d : Declaration) : List Token :=
  word "entity".toList :: word d.name.text :: word "is".toList ::
    (d.clauses ++ [word "end".toList, word d.name.text, mark .semicolon])

/-! ## Keywords of a printed text -/

theorem isIdentifier_entity : isIdentifier "entity".toList = true := by decide

theorem isIdentifier_end : isIdentifier "end".toList = true := by decide

theorem isIdentifier_generic : isIdentifier "generic".toList = true := by decide

theorem isIdentifier_port : isIdentifier "port".toList = true := by decide

section Keyword
variable {keyword : List Char} {ts us : List Token} {cs : List Char}

theorem words_mark (hk : isIdentifier keyword = true) (m : Mark) : words keyword none (mark m).text = [] :=
  words_of_not_isIdentChar hk fun c hc => isIdentChar_of_isDelimiter (isDelimiter_of_mark m c hc)

theorem not_isBoundary_head? (hk : isIdentifier keyword = true) (b : List Char) :
    isBoundary (keyword ++ b).head? = false := by
  cases keyword with
  | nil => cases hk
  | cons k ks => simp [isBoundary_some, all_isIdentChar hk k (by simp)]

theorem Spells.behind_keyword (hk : isIdentifier keyword = true) (h : Spells (word keyword :: ts) cs) :
    ∃ b, cs = keyword ++ b ∧ Printed ts b ∧ isBoundary b.head? = true ∧
      (startsWithWord ts = true → StartsWithGap b) := by
  cases h with
  | @cons _ _ gaps rest hgaps hword hrest =>
    have hparted : Parted keyword (gaps ++ rest) := (hrest.delimited hgaps hword).parted
    have hlast := not_isBoundary_getLast? (ne_nil_of_isIdentifier hk) (all_isIdentChar hk)
    have hboundary : isBoundary (gaps ++ rest).head? = true := hparted.resolve_left (by simp [hlast])
    refine ⟨gaps ++ rest, rfl, ⟨gaps, rest, hgaps, rfl, hrest⟩, hboundary, fun hts => ?_⟩
    cases gaps with
    | nil => exact absurd rfl (hword rfl hts)
    | cons g gaps => exact ⟨g, _, rfl, hgaps g (by simp)⟩

/-- The first place of a keyword is the one of the first token that has it. -/
theorem words_printed (hk : isIdentifier keyword = true) (hlower : keyword.map Char.toLower = keyword)
    (hts : Lacks keyword ts) (h : Printed (ts ++ word keyword :: us) cs) :
    ∃ a b later, words keyword none cs = (a, b) :: later ∧ Printed us b ∧
      (startsWithWord us = true → StartsWithGap b) := by
  obtain ⟨a, b, rfl, ha, hb, hab⟩ := h.append
  obtain ⟨b, rfl, hprinted, hboundary, hgap⟩ := hb.behind_keyword hk
  have hbefore : isBoundary a.getLast? = true := hab.parted.resolve_right (by rw [not_isBoundary_head? hk]; simp)
  obtain ⟨later, hlater⟩ := words_of_first hk hlower (ha.words_eq_nil hk hts) hbefore hboundary
  exact ⟨a, b, later, hlater, hprinted, hgap⟩

end Keyword

/-! ## The body of a clause -/

section Clause
variable {keyword : String} {entries : List (List Token)} {ts us : List Token} {cs : List Char}

theorem forall_mem_clauseTokens {P : Token → Prop} (hword : P (word keyword.toList)) (hmark : ∀ m, P (mark m))
    (hentries : ∀ ts ∈ entries, ∀ t ∈ ts, P t) : ∀ t ∈ clauseTokens keyword entries, P t := by
  unfold clauseTokens
  split
  · simp
  · have hbody : ∀ t ∈ bodyTokens entries, P t := forall_mem_intercalate (hmark .semicolon) hentries
    simpa [or_imp, forall_and, hword, hmark] using hbody

theorem clauseTokens_append (hne : entries ≠ []) (us : List Token) :
    clauseTokens keyword entries ++ us =
      word keyword.toList :: mark .openParen :: (bodyTokens entries ++ mark .closeParen :: mark .semicolon :: us) := by
  simp [clauseTokens, hne]

/-- The tokens of each entry are closed. -/
def AllClosed (entries : List (List Token)) : Prop := ∀ ts ∈ entries, ∀ t ∈ ts, Closed t.text

theorem AllInner.closed (h : AllInner entries) : AllClosed entries := fun ts hts t ht => (h ts hts t ht).closed

theorem nested_body (hentries : AllClosed entries) {body : List Char} (h : Printed (bodyTokens entries) body) :
    Nested body :=
  h.nested (forall_mem_intercalate (P := fun t => Nested t.text) (by rfl) fun ts hts t ht =>
    (hentries ts hts t ht).nested)

theorem solid_body (hentries : ∀ ts ∈ entries, ∀ t ∈ ts, Solid t.text) : ∀ t ∈ bodyTokens entries, Solid t.text := by
  have hsemicolon : Solid (mark .semicolon).text := (Mark.clean .semicolon).solid
  exact forall_mem_intercalate (P := fun t => Solid t.text) hsemicolon hentries

/-- A clause is found behind tokens that open no group with its keyword. -/
theorem clauseBody_behind (hk : isIdentifier keyword.toList = true)
    (hlower : keyword.toList.map Char.toLower = keyword.toList) (hne : entries ≠ []) (hclosed : AllClosed entries)
    (hsolid : ∀ ts ∈ entries, ∀ t ∈ ts, Solid t.text) (hts : ∀ a, Printed ts a → OpensNone keyword.toList a)
    (h : Printed (ts ++ (clauseTokens keyword entries ++ us)) cs) :
    Printed (bodyTokens entries) (clauseBody keyword.toList cs) := by
  rw [clauseTokens_append hne] at h
  obtain ⟨a, b, rfl, ha, hb, hab⟩ := h.append
  obtain ⟨b, rfl, hb, hboundary, -⟩ := hb.behind_keyword hk
  obtain ⟨gaps, rest, hgaps, rfl, hrest, -⟩ := hb.cons
  obtain ⟨body, after, rfl, hbody, -⟩ := hrest.split
  have hgroup : group? (gaps ++ ((mark .openParen).text ++ (body ++ (Mark.closeParen.text ++ after)))) =
      some (dropGaps body, after) := group?_nested (nested_body hclosed hbody) hgaps after
  rw [clauseBody_append hk hlower hab.parted (hts a ha) hboundary hgroup]
  exact (hbody.dropGaps (solid_body hsolid)).printed

/-- A clause is found where nothing else has its keyword. -/
theorem clauseBody_printed (hk : isIdentifier keyword.toList = true)
    (hlower : keyword.toList.map Char.toLower = keyword.toList)
    (hts : Lacks keyword.toList ts) (hus : Lacks keyword.toList us) (hentries : AllInner entries)
    (h : Printed (ts ++ (clauseTokens keyword entries ++ us)) cs) :
    if entries = [] then clauseBody keyword.toList cs = []
    else Printed (bodyTokens entries) (clauseBody keyword.toList cs) := by
  split
  · rename_i hempty
    rw [clauseTokens, if_pos hempty, List.nil_append] at h
    have hnone := h.words_eq_nil hk (List.forall_mem_append.2 ⟨hts, hus⟩)
    simp [clauseBody, occurrences_eq_words hk, hnone]
  · rename_i hne
    exact clauseBody_behind hk hlower hne hentries.closed (fun ts hts t ht => (hentries ts hts t ht).solid)
      (fun a ha => opensNone_of_words (ha.words_eq_nil hk hts)) h

end Clause

/-! ## The end of a declaration -/

/-- The parentheses of the text match, and `end` stands only inside of them. -/
structure NoEnd (cs : List Char) : Prop where
  depth : parenDepth cs = 0
  inside : ∀ o ∈ words "end".toList none cs, parenDepth o.1 ≠ 0

section NoEnd
variable {a b cs : List Char}

theorem NoEnd.append (hab : Delimited a b) (ha : NoEnd a) (hb : NoEnd b) : NoEnd (a ++ b) := by
  refine ⟨by rw [parenDepth_append, ha.depth, hb.depth, add_zero], fun o ho => ?_⟩
  rw [words_append isIdentifier_end hab.parted, List.mem_append, List.mem_map, List.mem_map] at ho
  rcases ho with ⟨o, ho, rfl⟩ | ⟨o, ho, rfl⟩
  · exact ha.inside o ho
  · rw [parenDepth_append, ha.depth, zero_add]
    exact hb.inside o ho

theorem noEnd_of_words_eq_nil (hnested : Nested cs) (h : words "end".toList none cs = []) : NoEnd cs :=
  ⟨hnested.parenDepth_eq, by rw [h]; simp⟩

/-- Inside of a group is inside of parentheses. -/
theorem noEnd_group (h : Nested cs) : NoEnd ('(' :: (cs ++ [')'])) := by
  refine ⟨?_, fun ⟨before, after⟩ hmem => ?_⟩
  · rw [parenDepth, parenDepth_append, h.parenDepth_eq]
    rfl
  obtain ⟨w, hw, hlower, -, -⟩ := of_mem_words hmem
  have hlength : w.length = 3 := by simpa using congrArg List.length hlower
  -- The word starts behind the parenthesis that opens the group, and before the one that closes it.
  cases before with
  | nil =>
    cases w with
    | nil => cases hlength
    | cons c w =>
      obtain ⟨rfl, -⟩ := List.cons.inj hw
      cases hlower
  | cons c before =>
    obtain ⟨rfl, htail⟩ := List.cons.inj hw
    have hstart : ∃ rest, cs = before ++ rest := by
      rcases List.append_eq_append_iff.1 htail with ⟨rest, -, hrest⟩ | ⟨rest, hcs, -⟩
      · have := congrArg List.length hrest
        simp at this
        omega
      · exact ⟨rest, hcs⟩
    obtain ⟨rest, rfl⟩ := hstart
    have hdepth := h.parenDepth_nonneg
    rw [parenDepth, show depthChange '(' = 1 from rfl]
    omega

end NoEnd

theorem noEnd_clause {keyword : String} {entries : List (List Token)} {cs : List Char}
    (hk : isIdentifier keyword.toList = true) (hkeyword : keyword.toList.map Char.toLower ≠ "end".toList)
    (hentries : AllClosed entries) (h : Printed (clauseTokens keyword entries) cs) : NoEnd cs := by
  by_cases hne : entries = []
  · rw [clauseTokens, if_pos hne] at h
    exact noEnd_of_words_eq_nil (h.nested (by simp)) (h.words_eq_nil isIdentifier_end (lacks_nil _))
  · rw [← List.append_nil (clauseTokens keyword entries), clauseTokens_append hne] at h
    have hsplit : Printed ([word keyword.toList] ++ mark .openParen ::
        (bodyTokens entries ++ mark .closeParen :: [mark .semicolon])) cs := h
    obtain ⟨before, rest, rfl, hbefore, hrest⟩ := hsplit.split
    obtain ⟨body, after, rfl, hbody, hafter⟩ := hrest.split
    have hstart : NoEnd before := by
      refine noEnd_of_words_eq_nil (hbefore.nested ?_) (hbefore.words_eq_nil isIdentifier_end ?_)
      · exact List.forall_mem_singleton.2 (closed_of_isIdentifier hk).nested
      · exact List.forall_mem_singleton.2 (words_of_isIdentifier hk hkeyword)
    have hend : NoEnd after := by
      refine noEnd_of_words_eq_nil (hafter.nested ?_) (hafter.words_eq_nil isIdentifier_end ?_)
      · exact List.forall_mem_singleton.2 rfl
      · exact List.forall_mem_singleton.2 rfl
    have hgroup : NoEnd ('(' :: (body ++ [')'])) := noEnd_group (nested_body hentries hbody)
    have hlast : ('(' :: (body ++ [')'])).getLast? = some ')' := by rw [← List.cons_append, List.getLast?_concat]
    have hrest : NoEnd ('(' :: (body ++ [')']) ++ after) := hgroup.append (.inl (by simp [hlast, isDelimiter])) hend
    have hwhole : NoEnd (before ++ ('(' :: (body ++ [')']) ++ after)) := hstart.append (.inr (by simp [isDelimiter])) hrest
    simpa [Mark.text] using hwhole

/-- A declaration reaches to its `end`. -/
theorem region_printed {ts us : List Token} {cs : List Char} (hts : ∀ a, Printed ts a → NoEnd a)
    (h : Printed (ts ++ word "end".toList :: us) cs) : Printed ts (region cs) := by
  obtain ⟨a, b, rfl, ha, hb, hab⟩ := h.append
  obtain ⟨b, rfl, -, hboundary, -⟩ := hb.behind_keyword isIdentifier_end
  obtain ⟨later, hlater⟩ := words_of_first isIdentifier_end rfl (a := []) rfl rfl hboundary
  -- What has the word in the clauses has it inside of parentheses, and so the search goes on.
  have hnone := hts a ha
  have hplaces : words "end".toList none (a ++ ("end".toList ++ b)) =
      (words "end".toList none a).map (fun o => (o.1, o.2 ++ ("end".toList ++ b))) ++
        (a, b) :: later.map fun o => (a ++ o.1, o.2) := by
    have hfirst : words "end".toList none ("end".toList ++ b) = ([], b) :: later := hlater
    rw [words_append isIdentifier_end hab.parted, hfirst, List.map_cons, List.append_nil]
  rw [region, occurrences_eq_words isIdentifier_end, hplaces, List.find?_append, List.find?_eq_none.2, Option.none_or,
    List.find?_cons_of_pos]
  · exact ha
  · simpa using hnone.depth
  · refine List.forall_mem_map.2 fun o ho => ?_
    simpa using hnone.inside o ho

/-! ## The header -/

theorem StartsWithGap.isBoundary {cs : List Char} (h : StartsWithGap cs) : isBoundary cs.head? = true := by
  obtain ⟨g, rest, rfl, hg⟩ := h
  simp [isBoundary_some, isIdentChar_of_isGap hg]

/-- The next token behind a gap. -/
theorem dropGaps1_printed {t : Token} {ts : List Token} {cs : List Char} (hsolid : ∀ u ∈ t :: ts, Solid u.text)
    (h : Printed (t :: ts) cs) (hgap : StartsWithGap cs) :
    ∃ rest, dropGaps1? cs = some rest ∧ Spells (t :: ts) rest := by
  obtain ⟨g, rest, rfl, hg⟩ := hgap
  refine ⟨dropGaps rest, by simp [dropGaps1?, hg], ?_⟩
  have hdrop := h.dropGaps hsolid
  rwa [Text.dropGaps, List.dropWhile_cons_of_pos hg] at hdrop

theorem inner_generics (d : Declaration) : AllInner (d.generics.map GenericEntry.tokens) :=
  List.forall_mem_map.2 fun g _ => g.inner

theorem inner_ports (d : Declaration) : AllInner (d.ports.map PortEntry.tokens) :=
  List.forall_mem_map.2 fun p _ => p.inner

/-- What follows the header starts with a word. -/
theorem startsWithWord_clauses (d : Declaration) (w : List Char) (ts : List Token) :
    startsWithWord (d.clauses ++ word w :: ts) = true := by
  unfold Declaration.clauses clauseTokens
  split <;> split <;> rfl

theorem Declaration.clean (d : Declaration) : ∀ t ∈ d.tokens, Clean t.text := by
  have hclause : ∀ (keyword : String) entries, isIdentifier keyword.toList = true → AllInner entries →
      ∀ t ∈ clauseTokens keyword entries, Clean t.text := fun keyword entries hk hentries =>
    forall_mem_clauseTokens (P := fun t => Clean t.text) (clean_of_isIdentifier hk) Mark.clean
      fun ts hts t ht => (hentries ts hts t ht).clean
  have hkeyword : ∀ w, isIdentifier w = true → Clean (word w).text := fun w => clean_of_isIdentifier
  have hclauses : ∀ t ∈ d.clauses, Clean t.text := List.forall_mem_append.2
    ⟨hclause _ _ isIdentifier_generic (inner_generics d), hclause _ _ isIdentifier_port (inner_ports d)⟩
  have hend : ∀ t ∈ [word "end".toList, word d.name.text, mark .semicolon], Clean t.text := by
    simpa using ⟨hkeyword _ isIdentifier_end, d.name.inner.clean, Mark.clean .semicolon⟩
  simp only [Declaration.tokens, List.forall_mem_cons]
  exact ⟨hkeyword _ (by decide), d.name.inner.clean, hkeyword _ (by decide),
    List.forall_mem_append.2 ⟨hclauses, hend⟩⟩

theorem header_printed {name : List Char} (hname : isIdentifier name = true) {ts : List Token} {cs : List Char}
    (hts : startsWithWord ts = true) (hsolid : ∀ t ∈ word name :: word "is".toList :: ts, Solid t.text)
    (hgap : StartsWithGap cs) (h : Printed (word name :: word "is".toList :: ts) cs) :
    ∃ rest, header? cs = some (name, rest) ∧ Printed ts rest := by
  obtain ⟨_, hdrop, hspells⟩ := dropGaps1_printed hsolid h hgap
  obtain ⟨rest, rfl, hrest, -, hgap'⟩ := hspells.behind_keyword hname
  have hidentifier := identifier?_append hname (hgap' rfl).isBoundary
  obtain ⟨_, hdrop', hspells'⟩ := dropGaps1_printed (List.forall_mem_cons.1 hsolid).2 hrest (hgap' rfl)
  obtain ⟨rest', rfl, hrest', -, hgap''⟩ := hspells'.behind_keyword (by decide)
  have his : afterWord? "is".toList ("is".toList ++ rest') = some rest' := afterWord?_eq_some_iff.2 ⟨_, rfl, by decide⟩
  refine ⟨rest', ?_, hrest'⟩
  simp only [header?, hdrop, hidentifier, hdrop', his, Option.bind_eq_bind, Option.bind_some]
  rw [if_pos (hgap'' hts).isBoundary]

/-- The declaration of a text is the first one, and it is read from behind its header. -/
theorem declaration?_printed {name : List Char} (hname : isIdentifier name = true) {ts : List Token} {cs : List Char}
    (hts : startsWithWord ts = true) (hsolid : ∀ t ∈ word name :: word "is".toList :: ts, Solid t.text)
    (h : Printed (word "entity".toList :: word name :: word "is".toList :: ts) cs) :
    ∃ rest, declaration? cs = some (name, rest) ∧ Printed ts rest := by
  rw [← List.nil_append (word "entity".toList :: _)] at h
  obtain ⟨a, b, later, hwords, hb, hgap⟩ := words_printed isIdentifier_entity (by decide) (lacks_nil _) h
  obtain ⟨rest, hheader, hrest⟩ := header_printed hname hts hsolid (hgap rfl) hb
  refine ⟨rest, ?_, hrest⟩
  simp only [declaration?, occurrences_eq_words isIdentifier_entity, hwords, List.findSome?_cons, hheader]

theorem declaration_printed (d : Declaration) {cs : List Char} (h : Printed d.tokens cs) :
    ∃ rest, declaration? cs = some (d.name.text, rest) ∧
      Printed (d.clauses ++ [word "end".toList, word d.name.text, mark .semicolon]) rest :=
  declaration?_printed d.name.identifier (startsWithWord_clauses d _ _)
    (solid_of_clean (List.forall_mem_cons.1 d.clean).2) h

/-! ## Declarations -/

theorem noEnd_clauses (d : Declaration) {cs : List Char} (h : Printed d.clauses cs) : NoEnd cs := by
  obtain ⟨a, b, rfl, ha, hb, hab⟩ := h.append
  exact (noEnd_clause isIdentifier_generic (by decide) (inner_generics d).closed ha).append hab
    (noEnd_clause isIdentifier_port (by decide) (inner_ports d).closed hb.printed)

theorem generics_printed (d : Declaration) {cs : List Char} (h : Printed d.clauses cs) :
    GenericDecl.readAll (clauseBody "generic".toList cs) = d.generics.flatMap GenericEntry.declared := by
  have hothers : Lacks "generic".toList (clauseTokens "port" (d.ports.map PortEntry.tokens)) :=
    forall_mem_clauseTokens (by decide) (words_mark isIdentifier_generic) fun ts hts t ht =>
      (inner_ports d ts hts t ht).no_generic
  rw [Declaration.clauses, ← List.nil_append (clauseTokens "generic" _ ++ _)] at h
  have hbody := clauseBody_printed isIdentifier_generic (by decide) (lacks_nil _) hothers (inner_generics d) h
  split at hbody
  · rename_i hempty
    rw [hbody, List.map_eq_nil_iff.1 hempty]
    rfl
  · rename_i hne
    exact GenericDecl.readAll_printed (by simpa using hne) hbody

theorem ports_printed (d : Declaration) {cs : List Char} (h : Printed d.clauses cs) :
    PortDecl.readAll (clauseBody "port".toList cs) = d.ports.flatMap PortEntry.declared := by
  have hothers : Lacks "port".toList (clauseTokens "generic" (d.generics.map GenericEntry.tokens)) :=
    forall_mem_clauseTokens (by decide) (words_mark isIdentifier_port) fun ts hts t ht =>
      (inner_generics d ts hts t ht).no_port
  rw [Declaration.clauses, ← List.append_nil (clauseTokens "port" _)] at h
  have hbody := clauseBody_printed isIdentifier_port (by decide) hothers (lacks_nil _) (inner_ports d) h
  split at hbody
  · rename_i hempty
    rw [hbody, List.map_eq_nil_iff.1 hempty]
    rfl
  · rename_i hne
    exact PortDecl.readAll_printed (by simpa using hne) hbody

/-- A printed declaration is read as it was written, whatever its gaps are, and whether or not a
bus is looked for among its ports. -/
theorem parse_printed (d : Declaration) {source : List Char} (h : Printed d.tokens source) (detect : Bool) :
    ∃ e, Entity.parse source detect = .ok e ∧ e.name = String.ofList d.name.text ∧
      e.generics = d.generics.flatMap GenericEntry.declared ∧
      e.ports.map (·.port) = d.ports.flatMap PortEntry.declared := by
  obtain ⟨rest, hdeclaration, hrest⟩ := declaration_printed d (h.stripComments d.clean)
  have hregion := region_printed (fun _ => noEnd_clauses d) hrest
  simp only [Entity.parse, hdeclaration, Except.ok.injEq, exists_eq_left', true_and]
  refine ⟨generics_printed d hregion, ?_⟩
  rw [ports_printed d hregion]
  simp [classify, Function.comp_def]

/-- A queue whose words are as wide as a generic says. -/
def queue : Declaration :=
  let integer : PlainType :=
    ⟨.checked "integer".toList (by decide) (by decide) (by decide) (by decide), by decide⟩
  let bit : PlainType :=
    ⟨.checked "std_logic".toList (by decide) (by decide) (by decide) (by decide), by decide⟩
  let vector : PlainType :=
    ⟨.checked "std_logic_vector(WIDTH-1 downto 0)".toList (by decide) (by decide) (by decide) (by decide), by decide⟩
  let eight : PlainText := .checked "8".toList (by decide) (by decide) (by decide) (by decide)
  let width : PlainName := ⟨"WIDTH".toList, by decide, by decide, by decide⟩
  let clk : PlainName := ⟨"clk".toList, by decide, by decide, by decide⟩
  let d : PlainName := ⟨"d".toList, by decide, by decide, by decide⟩
  let q : PlainName := ⟨"q".toList, by decide, by decide, by decide⟩
  { name := ⟨"queue".toList, by decide, by decide, by decide⟩
    generics := [⟨[width], by simp, integer, some eight⟩]
    ports := [⟨[clk], by simp, .input, bit, none⟩, ⟨[d, q], by simp, .inout, vector, none⟩] }

theorem parse_printed_queue :
    let source := "entity queue is generic ( WIDTH : integer := 8 ) ; port ( clk : in std_logic ; " ++
      "d , q : inout std_logic_vector(WIDTH-1 downto 0) ) ; end queue ; "
    Printed queue.tokens source.toList ∧
      ∃ e, Entity.parse source.toList true = .ok e ∧ e.name = "queue" ∧
        e.generics = [⟨"WIDTH", "integer", some "8"⟩] ∧
        e.ports.map (·.port) =
          [⟨"clk", .input, "std_logic", .scalar⟩,
            ⟨"d", .inout, "std_logic_vector(WIDTH-1 downto 0)", .generic "WIDTH"⟩,
            ⟨"q", .inout, "std_logic_vector(WIDTH-1 downto 0)", .generic "WIDTH"⟩] := by
  intro source
  have hprinted : Printed queue.tokens source.toList := by
    have hspaced : source.toList = spaced queue.tokens := by decide +kernel
    rw [hspaced]
    exact printed_spaced _
  obtain ⟨e, hparse, hname, hgenerics, hports⟩ := parse_printed queue hprinted true
  exact ⟨hprinted, e, hparse, hname.trans (by decide +kernel), hgenerics.trans (by decide +kernel),
    hports.trans (by decide +kernel)⟩

end CoreForge.Entity
