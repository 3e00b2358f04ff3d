import CoreForge.Proofs.Headers
import CoreForge.Proofs.Lines
/-!
# A declaration stands alone

Comments are removed first, and so a place in the source is one in the text without comments
(`HasEnd.closedAt`). Lines before the declaration, text behind its `end` and comments at the ends
of its lines change neither its header nor its region, and nothing else of the text is read
(`parse_declaration_alone`).
-/

namespace CoreForge.Entity

open CoreForge.Text

/-! ## What comes before -/

theorem words_of_prefix {keyword : List Char} (hk : isIdentifier keyword = true) {a b : List Char}
    (hb : isBoundary b.head? = true) (h : words keyword none (a ++ b) = []) : words keyword none a = [] := by
  rw [words_append hk (.inr hb)] at h
  exact List.map_eq_nil_iff.1 (List.append_eq_nil_iff.1 h).1

theorem words_feed {keyword : List Char} (hk : isIdentifier keyword = true) (a b : List Char) :
    words keyword none (a ++ '\n' :: b) = (words keyword none a).map (fun o => (o.1, o.2 ++ '\n' :: b)) ++
      (words keyword none b).map fun o => (a ++ '\n' :: o.1, o.2) := by
  have hfeed : words keyword none ('\n' :: b) = (words keyword none b).map fun o => ('\n' :: o.1, o.2) := by
    have hnone : words keyword none ['\n'] = [] := words_of_not_isIdentChar hk (by simp [isIdentChar])
    rw [← List.singleton_append, words_append hk (.inl rfl), hnone]
    rfl
  rw [words_append hk (.inr rfl), hfeed, List.map_map]
  rfl

theorem stripComments_before {keyword : List Char} (hk : isIdentifier keyword = true) {before source : List Char}
    (hfeed : before.getLast? = some '\n') (hnone : words keyword none before = []) (hsource : source ≠ []) :
    ∃ a, stripComments (before ++ source) = a ++ '\n' :: stripComments source ∧ words keyword none a = [] := by
  induction before using line_induction with
  | line l hl => exact absurd (List.mem_of_getLast? hfeed) hl
  | feed l rest hl ih =>
    rw [words_feed hk, List.append_eq_nil_iff, List.map_eq_nil_iff, List.map_eq_nil_iff] at hnone
    obtain ⟨tail, heq, htail⟩ := exists_eq_dropComment_chomp_append l
    have hfirst : words keyword none (dropComment (chomp l)) = [] := words_of_prefix hk htail (heq ▸ hnone.1)
    rw [List.append_assoc, List.cons_append, stripComments_feed hl (by simp [hsource])]
    by_cases hempty : rest = []
    · exact ⟨_, by rw [hempty, List.nil_append], hfirst⟩
    · rw [List.getLast?_append_cons, List.getLast?_cons_of_ne_nil hempty] at hfeed
      obtain ⟨a, hstrip, ha⟩ := ih hfeed hnone.2
      refine ⟨dropComment (chomp l) ++ '\n' :: a, by rw [hstrip, List.append_assoc, List.cons_append], ?_⟩
      rw [words_feed hk, hfirst, ha]
      rfl

theorem declaration?_before {a : List Char} (h : words "entity".toList none a = []) (cs : List Char) :
    declaration? (a ++ '\n' :: cs) = declaration? cs := by
  rw [declaration?_eq, declaration?_eq, words_feed isIdentifier_entity, h, List.map_nil, List.nil_append,
    List.findSome?_map]
  rfl

/-! ## Where a declaration is closed -/

/-- The declaration of the text has an `end` that something follows. -/
def HasEnd (source : List Char) : Prop :=
  ∃ name rest body after, declaration? (stripComments source) = some (name, rest) ∧ closing? rest = some (body, after) ∧
    after ≠ []

/-- The word behind `before` closes the declaration of the text, and the text goes on with `next`. -/
structure ClosedAt (source before word : List Char) (next : Char) (after : List Char) : Prop where
  splits : source = before ++ (word ++ next :: after)
  keyword : word.map Char.toLower = "end".toList
  next_boundary : isIdentChar next = false
  /-- The word does not stand in a comment. -/
  outside : ¬ ['-', '-'] <:+: lastLine (before ++ word)
  closes : ∃ name rest body, declaration? (stripComments (before ++ word)) = some (name, rest) ∧
    closing? rest = some (body, [])

theorem HasEnd.closedAt {source : List Char} (h : HasEnd source) :
    ∃ before word next after, ClosedAt source before word next after := by
  obtain ⟨name, rest, body, y, hdecl, hclosing, hy⟩ := h
  obtain ⟨x, hx⟩ := declaration?_suffix hdecl
  obtain ⟨w, rfl, hlower, -, hboundary⟩ := of_mem_words (List.mem_of_find?_eq_some hclosing)
  have hident : ∀ c ∈ w, isIdentChar c = true := fun c hc =>
    isIdentChar_of_lower (all_isIdentChar isIdentifier_end _ (hlower ▸ List.mem_map_of_mem hc))
  have hne : w ≠ [] := by
    rintro rfl
    cases hlower
  have hline : '\n' ∉ w := fun hmem => by cases hident _ hmem
  have hstrip : stripComments source = (x ++ body) ++ (w ++ y) := by rw [← hx, List.append_assoc]
  obtain ⟨before, ⟨next, after, hsplit, hnext⟩, hbefore, houtside⟩ := exists_reads hne hline hy hboundary hstrip
  refine ⟨before, w, next, after, hsplit, hlower, hnext, houtside, ?_⟩
  have hwhole : stripComments source = stripComments (before ++ w) ++ y := by
    rw [hbefore, hstrip]
    simp
  rw [hwhole] at hdecl
  obtain ⟨rest', hdecl', hrest'⟩ := declaration?_of_append hboundary hdecl (by simp only [List.length_append]; omega)
  rw [hrest'] at hclosing
  exact ⟨name, rest', body, hdecl', closing?_of_append hboundary hclosing⟩

/-- Behind the character that follows the closing word, nothing is read. -/
theorem ClosedAt.region {source before word after : List Char} {next : Char} (h : ClosedAt source before word next after) :
    ∃ name body, ∀ other, ∃ rest,
      declaration? (stripComments (before ++ (word ++ next :: other))) = some (name, rest) ∧ Entity.region rest = body := by
  obtain ⟨-, hlower, hnext, -, name, rest, body, hdecl, hclosing⟩ := h
  refine ⟨name, body, fun other => ?_⟩
  have hlast : ∃ c ∈ (before ++ word).getLast?, isIdentChar c = true := by
    have hne : word ≠ [] := by
      rintro rfl
      cases hlower
    refine ⟨word.getLast hne, ?_, ?_⟩
    · rw [List.getLast?_append_of_ne_nil _ hne, List.getLast?_eq_some_getLast hne]
      rfl
    · exact isIdentChar_of_lower (all_isIdentChar isIdentifier_end _ (hlower ▸ List.mem_map_of_mem (List.getLast_mem hne)))
  obtain ⟨b, hstrip, hboundary⟩ := stripComments_append (b := next :: other) hlast
  have hb := hboundary (by simp [isBoundary_some, hnext])
  refine ⟨rest ++ b, ?_, region_of_closing? (closing?_append hclosing hb)⟩
  rw [← List.append_assoc, hstrip, declaration?_append hdecl hb]

/-! ## Entities -/

section Parse
variable {source : List Char} {detect : Bool} {e : Entity}

/-- An entity is made of the name and the region of a declaration. -/
theorem parse_of_region {source' name rest rest' : List Char} (h : parse source detect = .ok e)
    (hdecl : declaration? (stripComments source) = some (name, rest))
    (hdecl' : declaration? (stripComments source') = some (name, rest')) (hregion : region rest' = region rest) :
    parse source' detect = .ok e := by
  unfold parse at h ⊢
  rw [hdecl] at h
  simp only [hdecl', hregion]
  exact h

theorem parse_before (h : parse source detect = .ok e) {before : List Char} (hfeed : before.getLast? = some '\n')
    (hnone : ¬ HasWord "entity".toList before) : parse (before ++ source) detect = .ok e := by
  obtain ⟨name, rest, hdecl, -⟩ := parse_cases h
  have hsource : source ≠ [] := by
    rintro rfl
    cases hdecl
  obtain ⟨a, hstrip, ha⟩ := stripComments_before isIdentifier_entity hfeed (words_eq_nil hnone) hsource
  refine parse_of_region h hdecl ?_ rfl
  rw [hstrip, declaration?_before ha, hdecl]

theorem parse_closedAt (h : parse source detect = .ok e) {before word after : List Char} {next : Char}
    (hclosed : ClosedAt source before word next after) (other : List Char) :
    parse (before ++ (word ++ next :: other)) detect = .ok e := by
  obtain ⟨name, body, hregion⟩ := hclosed.region
  obtain ⟨rest, hdecl, hrest⟩ := hregion after
  obtain ⟨rest', hdecl', hrest'⟩ := hregion other
  rw [← hclosed.splits] at hdecl
  exact parse_of_region h hdecl hdecl' (hrest'.trans hrest.symm)

theorem parse_comment (h : parse source detect = .ok e) (hend : HasEnd source) {line rest comment : List Char}
    (hsource : source = line ++ rest) (hends : LineEnds line rest) (hlast : line.getLast? ≠ some '-')
    (hcomment : '\n' ∉ comment) : parse (line ++ (['-', '-'] ++ (comment ++ rest))) detect = .ok e := by
  obtain ⟨name, behind, body, after, hdecl, hclosing, -⟩ := hend
  obtain ⟨feeds, hfeeds, hstrip⟩ := stripComments_comment hcomment hlast hends
  have hboundary : isBoundary feeds.head? = true := by
    cases feeds with
    | nil => rfl
    | cons c feeds =>
      rw [hfeeds c (by simp)]
      rfl
  have hdecl' : declaration? (stripComments (line ++ (['-', '-'] ++ (comment ++ rest)))) = some (name, behind ++ feeds) := by
    rw [hstrip, ← hsource]
    exact declaration?_append hdecl hboundary
  refine parse_of_region h hdecl hdecl' ?_
  rw [region_of_closing? hclosing, region_of_closing? (closing?_append hclosing hboundary)]

end Parse

/-- An entity is read from its declaration alone: not from the lines before it, from what
follows its `end`, or from comments. -/
theorem parse_declaration_alone {source : List Char} {detect : Bool} {e : Entity} (h : parse source detect = .ok e)
    (hend : HasEnd source) :
    (∀ before : List Char, before.getLast? = some '\n' → ¬ HasWord "entity".toList before →
      parse (before ++ source) detect = .ok e) ∧
    (∀ after, parse (source ++ after) detect = .ok e) ∧
    (∃ before word next after, ClosedAt source before word next after) ∧
    (∀ before word next after other, ClosedAt source before word next after →
      parse (before ++ (word ++ next :: other)) detect = .ok e) ∧
    ∀ line rest comment, source = line ++ rest → LineEnds line rest → line.getLast? ≠ some '-' → '\n' ∉ comment →
      parse (line ++ (['-', '-'] ++ (comment ++ rest))) detect = .ok e := by
  obtain ⟨before, word, next, after, hclosed⟩ := hend.closedAt
  refine ⟨fun _ hfeed hnone => parse_before h hfeed hnone, fun added => ?_, ⟨before, word, next, after, hclosed⟩,
    fun _ _ _ _ other hclosed' => parse_closedAt h hclosed' other,
    fun _ _ _ hsource hends hlast hcomment => parse_comment h hend hsource hends hlast hcomment⟩
  have hadded := parse_closedAt h hclosed (after ++ added)
  rw [hclosed.splits]
  simpa using hadded

theorem parse_declaration_alone_register :
    let source := "entity r is port(d:in bit);end;".toList
    let e : Entity := ⟨"r", [], [⟨⟨"d", .input, "bit", .scalar⟩, .user "D"⟩], []⟩
    parse source true = .ok e ∧ HasEnd source ∧
      parse ("library x;\n".toList ++ source) true = .ok e ∧ parse (source ++ "entity s is".toList) true = .ok e ∧
      parse (source ++ "-- ;)".toList) true = .ok e := by
  intro source e
  have hparse : parse source true = .ok e := by decide +kernel
  have hend : HasEnd source :=
    ⟨"r".toList, " port(d:in bit);end;".toList, " port(d:in bit);".toList, [';'], by decide +kernel, by decide +kernel,
      by simp⟩
  obtain ⟨hbefore, hafter, -, -, hcomment⟩ := parse_declaration_alone hparse hend
  have hnone : ¬ HasWord "entity".toList "library x;\n".toList := not_hasWord (by decide) (by decide)
  exact ⟨hparse, hend, hbefore _ (by decide) hnone, hafter _,
    hcomment source [] " ;)".toList (by simp) (.inl rfl) (by decide) (by decide)⟩

end CoreForge.Entity
