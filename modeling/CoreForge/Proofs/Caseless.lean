import CoreForge.Proofs.BusMembers
import CoreForge.Proofs.Letters
/-!
# Entities in any case

Reading an entity commutes with taking its source in lower case: `parse_lower`. What is read
keeps the spelling of the source in names, types and defaults only. Roles and buses are
found in lower case to begin with, and the members of a bus are those with its stem. So two
sources that differ in the case of letters give entities that differ in nothing else:
`parse_caseless`.
-/

namespace CoreForge.Entity

open CoreForge.Text CoreForge.Number

/-! ## Words and clauses -/

theorem isBoundary_lower (c : Option Char) : isBoundary (c.map Char.toLower) = isBoundary c := by
  cases c with
  | none => rfl
  | some c => simp [isBoundary, isIdentChar_toLower]

theorem head?_lower (cs : List Char) : isBoundary (cs.map Char.toLower).head? = isBoundary cs.head? := by
  rw [List.head?_map, isBoundary_lower]

theorem occurrences_lower (keyword : List Char) (skip : Nat) (previous : Option Char) (cs : List Char) :
    occurrences keyword skip (previous.map Char.toLower) (cs.map Char.toLower) =
      (occurrences keyword skip previous cs).map lowerBoth := by
  induction cs generalizing skip previous with
  | nil => cases skip <;> rfl
  | cons c cs ih =>
    have hnext := fun skip => ih skip (some c)
    simp only [Option.map_some] at hnext
    cases skip with
    | succ skip => simp [occurrences, hnext, lowerBoth, Function.comp_def]
    | zero =>
      have hafter := afterWord?_lower keyword (c :: cs)
      rw [List.map_cons] at hafter
      simp only [List.map_cons, occurrences, hafter, isBoundary_lower]
      cases afterWord? keyword (c :: cs) with
      | none => simp [hnext, lowerBoth, Function.comp_def]
      | some after =>
        simp only [Option.map_some, head?_lower]
        split <;> simp [hnext, lowerBoth, Function.comp_def]

theorem occurrences_start_lower (keyword cs : List Char) :
    occurrences keyword 0 none (cs.map Char.toLower) = (occurrences keyword 0 none cs).map lowerBoth :=
  occurrences_lower keyword 0 none cs

theorem dropComment_lower (line : List Char) :
    dropComment (line.map Char.toLower) = (dropComment line).map Char.toLower := by
  unfold dropComment
  rw [cut?_lower (by simp)]
  cases cut? ['-', '-'] line <;> rfl

theorem stripComments_lower (cs : List Char) :
    stripComments (cs.map Char.toLower) = (stripComments cs).map Char.toLower := by
  unfold stripComments
  rw [lines_lower, List.map_map, ← unlines_lower, List.map_map]
  congr 2
  funext line
  exact dropComment_lower line

theorem untilUnbalanced_lower (depth : Nat) (cs : List Char) :
    untilUnbalanced '(' ')' depth (cs.map Char.toLower) = (untilUnbalanced '(' ')' depth cs).map lowerBoth := by
  induction cs generalizing depth with
  | nil => rfl
  | cons c cs ih =>
    have hgoOn : ∀ depth, (((untilUnbalanced '(' ')' depth cs).map lowerBoth).map fun p => (c.toLower :: p.1, p.2)) =
        ((untilUnbalanced '(' ')' depth cs).map fun p => (c :: p.1, p.2)).map lowerBoth := by
      intro depth
      simp [lowerBoth, Function.comp_def]
    simp only [List.map_cons, untilUnbalanced, toLower_eq_iff (p := '(') rfl, toLower_eq_iff (p := ')') rfl, ih]
    split
    · exact hgoOn (depth + 1)
    · split
      · cases depth with
        | zero => rfl
        | succ depth => exact hgoOn depth
      · exact hgoOn depth

theorem group?_lower (cs : List Char) : group? (cs.map Char.toLower) = (group? cs).map lowerBoth := by
  unfold group?
  rw [dropGaps_lower]
  cases dropGaps cs with
  | nil => rfl
  | cons c cs =>
    by_cases hc : c = '('
    · subst hc
      have hopen : Char.toLower '(' = '(' := rfl
      simp [hopen, dropGaps_lower, untilUnbalanced_lower, lowerBoth, Function.comp_def]
    · have hc' : c.toLower ≠ '(' := by rwa [Ne, toLower_eq_iff rfl]
      simp [hc, hc']

theorem depthChange_lower (c : Char) : depthChange c.toLower = depthChange c := by
  simp [depthChange, toLower_eq_iff]

theorem parenDepth_lower (cs : List Char) : parenDepth (cs.map Char.toLower) = parenDepth cs := by
  induction cs with
  | nil => rfl
  | cons c cs ih => rw [List.map_cons, parenDepth, parenDepth, depthChange_lower, ih]

theorem topLevelPieces_lower {sep : Char} (hsep : sep.isAlpha = false) (depth : Int) (cs : List Char) :
    topLevelPieces sep depth (cs.map Char.toLower) = (topLevelPieces sep depth cs).map (List.map Char.toLower) := by
  induction cs generalizing depth with
  | nil => rfl
  | cons c cs ih =>
    have hopen := toLower_eq_iff (c := c) (p := '(') rfl
    have hclose := toLower_eq_iff (c := c) (p := ')') rfl
    simp only [List.map_cons, topLevelPieces, ne_eq, hopen, hclose, toLower_eq_iff hsep, depthChange_lower, ih]
    split
    · rfl
    · cases topLevelPieces sep (depth + depthChange c) cs <;> rfl

theorem splitTopLevel_lower {sep : Char} (hsep : sep.isAlpha = false) (cs : List Char) :
    splitTopLevel sep (cs.map Char.toLower) = (splitTopLevel sep cs).map (List.map Char.toLower) := by
  unfold splitTopLevel
  rw [topLevelPieces_lower hsep, List.map_map, List.filter_map, List.filter_map, List.map_map]
  simp only [Function.comp_def, trim_lower, List.isEmpty_map]

theorem header?_lower (cs : List Char) : header? (cs.map Char.toLower) = (header? cs).map lowerBoth := by
  unfold header?
  rw [dropGaps1?_lower]
  cases dropGaps1? cs with
  | none => rfl
  | some cs =>
    simp only [Option.map_some, Option.bind_eq_bind, Option.bind_some, identifier?_lower]
    cases identifier? cs with
    | none => rfl
    | some r =>
      simp only [Option.map_some, Option.bind_some, lowerBoth, dropGaps1?_lower]
      cases dropGaps1? r.2 with
      | none => rfl
      | some cs =>
        simp only [Option.map_some, Option.bind_some, afterWord?_lower]
        cases afterWord? "is".toList cs with
        | none => rfl
        | some rest =>
          simp only [Option.map_some, Option.bind_some, head?_lower]
          split <;> rfl

theorem declaration?_lower (cs : List Char) : declaration? (cs.map Char.toLower) = (declaration? cs).map lowerBoth := by
  unfold declaration?
  rw [occurrences_start_lower, List.findSome?_map, List.map_findSome?]
  congr 1
  funext o
  exact header?_lower o.2

theorem region_lower (cs : List Char) : region (cs.map Char.toLower) = (region cs).map Char.toLower := by
  unfold region
  rw [occurrences_start_lower, List.find?_map]
  have hdepth : (fun o : List Char × List Char => decide (parenDepth o.1 = 0)) ∘ lowerBoth =
      fun o => decide (parenDepth o.1 = 0) := by
    funext o
    simp [lowerBoth, parenDepth_lower]
  rw [hdepth]
  cases (occurrences "end".toList 0 none cs).find? fun o => parenDepth o.1 = 0 <;> rfl

theorem clauseBody_lower (keyword cs : List Char) :
    clauseBody keyword (cs.map Char.toLower) = (clauseBody keyword cs).map Char.toLower := by
  unfold clauseBody
  have hgroup : (fun o : List Char × List Char => group? o.2) ∘ lowerBoth = Option.map lowerBoth ∘ fun o => group? o.2 := by
    funext o
    exact group?_lower o.2
  rw [occurrences_start_lower, List.findSome?_map, hgroup, ← List.map_findSome?]
  cases (occurrences keyword 0 none cs).findSome? fun o => group? o.2 <;> rfl

/-! ## Widths -/

theorem findWord?_lower (keyword cs : List Char) :
    findWord? keyword none (cs.map Char.toLower) = (findWord? keyword none cs).map lowerBoth := by
  unfold findWord?
  rw [occurrences_start_lower, List.head?_map]

theorem genericMinusOne?_lower (cs : List Char) :
    genericMinusOne? (cs.map Char.toLower) = (genericMinusOne? cs).map (List.map Char.toLower) := by
  unfold genericMinusOne?
  rw [dropGaps_lower, identifier?_lower]
  cases identifier? (dropGaps cs) with
  | none => rfl
  | some r =>
    simp only [Option.map_some, Option.bind_eq_bind, Option.bind_some, lowerBoth, dropGaps_lower]
    rw [afterStart?_lower (by simp)]
    cases afterStart? ['-'] (dropGaps r.2) with
    | none => rfl
    | some cs =>
      simp only [Option.map_some, Option.bind_some, dropGaps_lower]
      rw [afterStart?_lower (by simp)]
      cases afterStart? ['1'] (dropGaps cs) with
      | none => rfl
      | some cs =>
        simp only [Option.map_some, Option.bind_some, dropGaps_lower, List.map_eq_nil_iff]
        split <;> rfl

theorem bounds?_lower (range : List Char) :
    bounds? (range.map Char.toLower) =
      (bounds? range).map fun (left, right, down) => (left.map Char.toLower, right.map Char.toLower, down) := by
  unfold bounds?
  rw [findWord?_lower, findWord?_lower]
  cases findWord? "downto".toList none range with
  | some r => simp [lowerBoth, trim_lower]
  | none =>
    cases findWord? "to".toList none range with
    | some r => simp [lowerBoth, trim_lower]
    | none => rfl

/-- A width with its text in lower case. -/
def WidthExpr.lowered : WidthExpr → WidthExpr
  | .scalar => .scalar
  | .fixed bits => .fixed bits
  | .generic name => .generic (lower name)
  | .unresolved type => .unresolved (lower type)

theorem ofList_lower (cs : List Char) : String.ofList (cs.map Char.toLower) = lower (String.ofList cs) := by
  rw [lower, String.toList_ofList]

theorem rangeWidth?_lower (range : List Char) :
    rangeWidth? (range.map Char.toLower) = (rangeWidth? range).map WidthExpr.lowered := by
  unfold rangeWidth?
  rw [bounds?_lower]
  cases bounds? range with
  | none => rfl
  | some r =>
    obtain ⟨left, right, down⟩ := r
    simp only [Option.map_some, Option.bind_eq_bind, Option.bind_some, ofText?_lower]
    split
    · rename_i l r _ _
      cases fit32? (positions l r).toNat <;> rfl
    · cases down with
      | true =>
        simp only [if_true, ofText?_lower, genericMinusOne?_lower]
        split
        · cases genericMinusOne? left with
          | none => rfl
          | some name => simp [ofList_lower, WidthExpr.lowered]
        · rfl
      | false =>
        simp only [Bool.false_eq_true, if_false, ofText?_lower, genericMinusOne?_lower]
        split
        · cases genericMinusOne? right with
          | none => rfl
          | some name => simp [ofList_lower, WidthExpr.lowered]
        · rfl

theorem inferWidth_lower (type : List Char) : inferWidth (type.map Char.toLower) = (inferWidth type).lowered := by
  have hparen : (type.map Char.toLower).contains '(' = type.contains '(' := by
    rw [Bool.eq_iff_iff]
    simp [toLower_eq_iff]
  have hopen : (fun c => decide (c ≠ '(')) ∘ Char.toLower = fun c => decide (c ≠ '(') := by
    funext c
    simp [toLower_eq_iff]
  unfold inferWidth
  rw [hparen, List.dropWhile_map, hopen, group?_lower]
  split
  · cases group? (type.dropWhile (· ≠ '(')) with
    | none => simp [WidthExpr.lowered, ofList_lower]
    | some r =>
      simp only [Option.map_some, lowerBoth, trim_lower, List.map_eq_nil_iff, rangeWidth?_lower, ofList_lower]
      split
      · cases rangeWidth? r.1 <;> rfl
      · rfl
  · rfl

/-! ## Generics and ports -/

theorem entry?_lower (cs : List Char) :
    entry? (cs.map Char.toLower) =
      ( entry? cs).map fun (names, rest) => (names.map (List.map Char.toLower), rest.map Char.toLower) := by
  unfold entry?
  rw [cut?_lower (by simp)]
  cases cut? [':'] cs with
  | none => rfl
  | some r =>
    have hnames : ((pieces ',' (r.1.map Char.toLower)).map trim).filter isIdentifier =
        (((pieces ',' r.1).map trim).filter isIdentifier).map (List.map Char.toLower) := by
      rw [pieces_lower rfl, List.map_map, List.filter_map, List.filter_map, List.map_map]
      simp only [Function.comp_def, trim_lower, isIdentifier_lower]
    simp only [Option.map_some, Option.bind_eq_bind, Option.bind_some, lowerBoth, hnames, List.isEmpty_map, trim_lower]
    split <;> rfl

theorem typeAndDefault_lower (cs : List Char) :
    typeAndDefault (cs.map Char.toLower) =
      ((typeAndDefault cs).1.map Char.toLower, (typeAndDefault cs).2.map (List.map Char.toLower)) := by
  unfold typeAndDefault
  rw [cut?_lower (by simp)]
  cases cut? [':', '='] cs with
  | none => simp [trim_lower]
  | some r => simp [lowerBoth, trim_lower]

/-- A generic with its texts in lower case. -/
def GenericDecl.lowered (g : GenericDecl) : GenericDecl := ⟨lower g.name, lower g.type, g.default.map lower⟩

/-- A port with its texts in lower case. -/
def PortDecl.lowered (p : PortDecl) : PortDecl := ⟨lower p.name, p.direction, lower p.type, p.width.lowered⟩

theorem GenericDecl.readAll_lower (body : List Char) :
    readAll (body.map Char.toLower) = (readAll body).map lowered := by
  unfold readAll
  rw [splitTopLevel_lower rfl, List.flatMap_map, List.map_flatMap]
  congr 1
  funext piece
  rw [entry?_lower]
  cases entry? piece with
  | none => rfl
  | some r =>
    simp only [Option.map_some, typeAndDefault_lower, List.map_map]
    congr 1
    funext name
    simp [lowered, ofList_lower, Function.comp_def]

theorem mode?_lower (cs : List Char) :
    mode? (cs.map Char.toLower) = (mode? cs).map fun (direction, rest) => (direction, rest.map Char.toLower) := by
  have hmodes : modes.findSome? (fun m => (afterWord? m.1 (cs.map Char.toLower)).map fun rest => (m.2, rest)) =
      (modes.findSome? fun m => (afterWord? m.1 cs).map fun rest => (m.2, rest)).map
        fun (direction, rest) => (direction, rest.map Char.toLower) := by
    rw [List.map_findSome?]
    congr 1
    funext m
    simp [afterWord?_lower, Function.comp_def]
  unfold mode?
  simp only [hmodes, Option.bind_eq_bind]
  cases modes.findSome? fun m => (afterWord? m.1 cs).map fun rest => (m.2, rest) with
  | none => rfl
  | some r =>
    simp only [Option.map_some, Option.bind_some, dropGaps1?_lower]
    cases dropGaps1? r.2 <;> rfl

theorem PortDecl.readAll_lower (body : List Char) :
    readAll (body.map Char.toLower) = (readAll body).map lowered := by
  unfold readAll
  rw [splitTopLevel_lower rfl, List.flatMap_map, List.map_flatMap]
  congr 1
  funext piece
  rw [entry?_lower]
  cases entry? piece with
  | none => rfl
  | some r =>
    simp only [Option.map_some, mode?_lower]
    cases mode? r.2 with
    | none => rfl
    | some m =>
      simp only [Option.map_some, typeAndDefault_lower, List.isEmpty_map]
      split
      · rfl
      · rw [List.map_map, List.map_map]
        congr 1
        funext name
        simp [lowered, ofList_lower, inferWidth_lower]

/-! ## Roles -/

theorem upper_lower (s : String) : upper (lower s) = upper s := by
  simp [upper, lower, Function.comp_def]

theorem Vocabulary.stem?_lower (v : Vocabulary) (name : String) : v.stem? (lower name) = v.stem? name := by
  unfold stem?
  rw [lower_lower]

theorem isClockName_lower (name : String) : isClockName (lower name) = isClockName name := by
  unfold isClockName
  rw [lower_lower]

theorem resetPolarity?_lower (name : String) : resetPolarity? (lower name) = resetPolarity? name := by
  unfold resetPolarity?
  rw [lower_lower]

theorem logicalName_lower (name : String) : logicalName (lower name) = logicalName name := by
  unfold logicalName
  rw [upper_lower]

/-- A bus interface with the names of its ports in lower case. -/
def DetectedBus.lowered (b : DetectedBus) : DetectedBus := { b with members := b.members.map lower }

section Detection
variable {ports : List PortDecl}

theorem Vocabulary.candidate?_lower (v : Vocabulary) (ports : List PortDecl) :
    v.candidate? (ports.map PortDecl.lowered) = v.candidate? ports := by
  have hstem : (fun p : PortDecl => v.stem? p.name) ∘ PortDecl.lowered = fun p => v.stem? p.name :=
    funext fun p => v.stem?_lower p.name
  unfold candidate? tally
  rw [List.filterMap_map, hstem]

theorem Candidate.bus_lower (c : Candidate) (ports : List PortDecl) :
    c.bus (ports.map PortDecl.lowered) = (c.bus ports).lowered := by
  have hmembers : (fun p : PortDecl => decide (c.vocabulary.stem? p.name = some c.stem)) ∘ PortDecl.lowered =
      fun p => decide (c.vocabulary.stem? p.name = some c.stem) := by
    funext p
    exact congrArg (fun stem => decide (stem = some c.stem)) (c.vocabulary.stem?_lower p.name)
  unfold bus DetectedBus.lowered
  rw [List.filter_map, hmembers, List.map_map, List.map_map]
  rfl

theorem detectBus?_lower (ports : List PortDecl) :
    detectBus? (ports.map PortDecl.lowered) = (detectBus? ports).map DetectedBus.lowered := by
  unfold detectBus?
  simp only [Vocabulary.candidate?_lower, Candidate.bus_lower, Option.map_map]
  rfl

/-- Whether a port is a member shows in any case, since it is a matter of the stem. -/
theorem mem_members_lower {c : Candidate} {p : PortDecl} (hp : p ∈ ports) :
    lower p.name ∈ (c.bus ports).lowered.members ↔ p.name ∈ (c.bus ports).members := by
  constructor
  · intro h
    obtain ⟨name, hname, hlower⟩ := List.mem_map.1 h
    have hstem := stem?_of_mem_members hname
    rw [← Vocabulary.stem?_lower, hlower, Vocabulary.stem?_lower] at hstem
    exact List.mem_map.2 ⟨p, List.mem_filter.2 ⟨hp, by simpa using hstem⟩, rfl⟩
  · intro h
    exact List.mem_map_of_mem h

theorem roleAmong_lower {buses : List DetectedBus} {p : PortDecl}
    (hmember : ∀ b ∈ buses, lower p.name ∈ b.lowered.members ↔ p.name ∈ b.members) :
    roleAmong (buses.map DetectedBus.lowered) p.lowered = roleAmong buses p := by
  have hfind : (buses.map DetectedBus.lowered).find? (fun b => b.members.contains p.lowered.name) =
      (buses.find? fun b => b.members.contains p.name).map DetectedBus.lowered := by
    rw [List.find?_map]
    refine congrArg (Option.map DetectedBus.lowered) (List.find?_congr fun b hb => ?_)
    rw [Bool.eq_iff_iff, Function.comp_apply, List.contains_iff_mem, List.contains_iff_mem]
    exact hmember b hb
  unfold roleAmong
  rw [hfind]
  cases buses.find? fun b => b.members.contains p.name with
  | some b => rfl
  | none =>
    have hname : p.lowered.name = lower p.name := rfl
    have hdirection : p.lowered.direction = p.direction := rfl
    simp only [Option.map_none, hname, hdirection, isClockName_lower, resetPolarity?_lower, logicalName_lower]

/-- A port with its texts in lower case, and the same role. -/
def ClassifiedPort.lowered (p : ClassifiedPort) : ClassifiedPort := ⟨p.port.lowered, p.role⟩

theorem classify_lower (ports : List PortDecl) (detect : Bool) :
    classify (ports.map PortDecl.lowered) detect =
      ((classify ports detect).1.map ClassifiedPort.lowered, (classify ports detect).2.map DetectedBus.lowered) := by
  have hbuses : (if detect then (detectBus? (ports.map PortDecl.lowered)).toList else []) =
      (if detect then (detectBus? ports).toList else []).map DetectedBus.lowered := by
    cases detect with
    | false => rfl
    | true =>
      simp only [if_true, detectBus?_lower]
      cases detectBus? ports <;> rfl
  unfold classify
  simp only [hbuses, List.map_map]
  congr 1
  refine List.map_congr_left fun p hp => ?_
  simp only [Function.comp_def, ClassifiedPort.lowered]
  congr 1
  refine roleAmong_lower fun b hb => ?_
  cases detect with
  | false => cases hb
  | true =>
    obtain ⟨v, -, stem, count, rfl⟩ := detectBus?_eq_some (Option.mem_toList.1 hb)
    exact mem_members_lower hp

end Detection

/-! ## Entities -/

/-- An entity with its names, types and defaults in lower case. -/
def lowered (e : Entity) : Entity :=
  { name := lower e.name
    generics := e.generics.map GenericDecl.lowered
    ports := e.ports.map ClassifiedPort.lowered
    buses := e.buses.map DetectedBus.lowered }

theorem parse_lower (source : List Char) (detect : Bool) :
    parse (source.map Char.toLower) detect = (parse source detect).map lowered := by
  unfold parse
  rw [stripComments_lower, declaration?_lower]
  cases declaration? (stripComments source) with
  | none => rfl
  | some r =>
    obtain ⟨name, rest⟩ := r
    simp only [Option.map_some, lowerBoth, region_lower, clauseBody_lower, GenericDecl.readAll_lower,
      PortDecl.readAll_lower, classify_lower, ofList_lower]
    rfl

theorem eq_noEntity {source : List Char} {detect : Bool} {f : Failure} (h : parse source detect = .error f) :
    f = .noEntity := by
  unfold parse at h
  split at h
  · cases h
    rfl
  · cases h

/-- Sources that differ at most in the case of letters are both refused, or give entities that
differ at most in the case of letters. -/
theorem parse_caseless {source source' : List Char} (h : source.map Char.toLower = source'.map Char.toLower)
    (detect : Bool) :
    parse source detect = .error .noEntity ∧ parse source' detect = .error .noEntity ∨
      ∃ e e', parse source detect = .ok e ∧ parse source' detect = .ok e' ∧ e.lowered = e'.lowered := by
  have hlowered : (parse source detect).map lowered = (parse source' detect).map lowered := by
    rw [← parse_lower, ← parse_lower, h]
  cases hparse : parse source detect with
  | error f =>
    cases hparse' : parse source' detect with
    | error f' => exact .inl ⟨congrArg _ (eq_noEntity hparse), congrArg _ (eq_noEntity hparse')⟩
    | ok e' =>
      rw [hparse, hparse'] at hlowered
      cases hlowered
  | ok e =>
    cases hparse' : parse source' detect with
    | error f' =>
      rw [hparse, hparse'] at hlowered
      cases hlowered
    | ok e' =>
      rw [hparse, hparse'] at hlowered
      exact .inr ⟨e, e', rfl, rfl, Except.ok.inj hlowered⟩

theorem parse_caseless_counter :
    let source : List Char :=
      "entity Counter is port (Rst_N : in bit; Q : out unsigned(0X1F downto 0)); end;".toList
    let source' : List Char :=
      "ENTITY COUNTER IS PORT (RST_N : IN BIT; Q : OUT UNSIGNED(0x1f DOWNTO 0)); END;".toList
    source.map Char.toLower = source'.map Char.toLower ∧
      ∃ e e', parse source true = .ok e ∧ parse source' true = .ok e' ∧ e.lowered = e'.lowered ∧
        e.ports.map (fun p => (p.port.name, p.port.width, p.role)) =
          [("Rst_N", .scalar, .reset .activeLow), ("Q", .fixed 32, .user "Q")] := by
  intro source source'
  have hsame : source.map Char.toLower = source'.map Char.toLower := by decide +kernel
  have hports : (parse source true).map (fun e => e.ports.map fun p => (p.port.name, p.port.width, p.role)) =
      .ok [("Rst_N", .scalar, .reset .activeLow), ("Q", .fixed 32, .user "Q")] := by decide +kernel
  rcases parse_caseless hsame true with ⟨hrefused, -⟩ | ⟨e, e', he, he', hlowered⟩
  · rw [hrefused] at hports
    cases hports
  · rw [he] at hports
    exact ⟨hsame, e, e', he, he', hlowered, Except.ok.inj hports⟩

end CoreForge.Entity
