import CoreForge.Proofs.Headers
import CoreForge.Proofs.SlicedSearch
/-!
# Clauses by byte positions

A declaration is taken apart here by slices between byte positions, most of which are found in the text in lower case
and carried from one function to the next. Every slice exists, every loop ends, and the parts are those that
are found by going through the characters.
-/

namespace CoreForge.Entity.Sliced

open CoreForge.Text

/-! ## Comments -/

/-- A line without the comment at its end. -/
def dropComment (line : List Char) : Checked (List Char) :=
  match find? ['-', '-'] line with
  | some position => sliceTo position line
  | none => return line

/-- A text without its comments. -/
def stripComments (cs : List Char) : Checked (List Char) := do
  let bare ← (lines cs).mapM dropComment
  return unlines bare

theorem dropComment_eq (line : List Char) : dropComment line = .ok (Entity.dropComment line) := by
  unfold dropComment Entity.dropComment find?
  cases hcut : cut? ['-', '-'] line with
  | none => rfl
  | some found =>
    obtain ⟨rfl, -⟩ := cut?_eq_some (by simp) hcut
    exact sliceTo_append _ _

theorem stripComments_eq (cs : List Char) : stripComments cs = .ok (Entity.stripComments cs) := by
  have hlines : (lines cs).mapM dropComment = .ok ((lines cs).map Entity.dropComment) :=
    mapM_ok fun line _ => dropComment_eq line
  rw [stripComments, hlines]
  rfl

/-! ## The declaration -/

/-- The name in the first header of a text, and the position behind the header. -/
def entityName (cs : List Char) : Checked (Option (List Char × Nat)) :=
  findAccepted (cs.map Char.toLower) "entity".toList (fun position => do
    let start ← sliceFrom position cs
    match (afterWord? "entity".toList start).bind header? with
    | none => return none
    | some (name, rest) =>
      let behind ← minus (byteLength cs) (byteLength rest)
      return some (name, behind)) 0

/-- The position of the `end` that closes the declaration behind a position, or the end of the text. -/
def regionEnd (text : List Char) (start : Nat) : Checked Nat := do
  let closing ← findAccepted text "end".toList (fun position => do
    let between ← slice start position text
    return if parenDepth between = 0 then some position else none) start
  return closing.getD (byteLength text)

section Declaration
variable {b : List Char}

theorem entityName_eq (cs : List Char) :
    entityName cs = .ok ((declaration? cs).map fun o => (o.1, byteLength cs - byteLength o.2)) := by
  rw [declaration?_eq, List.map_findSome?]
  refine findAccepted_start isIdentifier_entity ?_
  rintro ⟨before, after⟩ ho
  obtain ⟨w, rfl, hw, -, -⟩ := of_mem_words ho
  have hword : afterWord? "entity".toList (w ++ after) = some after := afterWord?_eq_some_iff.2 ⟨w, rfl, hw⟩
  simp only [sliceFrom_append, ok_bind, hword, Option.bind, Function.comp_apply]
  cases hheader : header? after with
  | none => rfl
  | some found =>
    obtain ⟨name, rest⟩ := found
    obtain ⟨front, rfl, -⟩ := header?_front hheader
    have hminus : minus (byteLength (before ++ (w ++ (front ++ rest)))) (byteLength rest) =
        .ok (byteLength (before ++ (w ++ (front ++ rest))) - byteLength rest) := by
      refine if_pos ?_
      simp only [byteLength_append]
      omega
    simp only [hminus]
    rfl

theorem findSome?_closing (f : List Char → Nat) (cs : List Char) :
    (words "end".toList none cs).findSome? (fun o => if parenDepth o.1 = 0 then some (f o.1) else none) =
      (closing? cs).map fun o => f o.1 := by
  rw [closing?, List.find?_eq_findSome?_guard, List.map_findSome?]
  congr 1
  funext o
  by_cases ho : parenDepth o.1 = 0 <;> simp [Option.guard, ho]

/-- The slice behind a header ends where the region of the declaration does. -/
theorem regionEnd_eq (a : List Char) (hb : isBoundary b.head? = true) :
    regionEnd ((a ++ b).map Char.toLower) (byteLength a) = .ok (byteLength (a ++ region b)) := by
  have hwords : words "end".toList a.getLast? b = words "end".toList none b :=
    words_previous isIdentifier_end (.inr hb)
  have haccept : ∀ o ∈ words "end".toList a.getLast? b, (do
      let between ← slice (byteLength a) (byteLength (a ++ o.1)) ((a ++ b).map Char.toLower)
      return if parenDepth between = 0 then some (byteLength (a ++ o.1)) else none : Checked (Option Nat)) =
        .ok (if parenDepth o.1 = 0 then some (byteLength (a ++ o.1)) else none) := by
    rintro ⟨before, after⟩ ho
    obtain ⟨w, rfl, -, -, -⟩ := of_mem_words ho
    have hslice := slice_append (a.map Char.toLower) (before.map Char.toLower) ((w ++ after).map Char.toLower)
    simp only [← List.map_append, byteLength_lower] at hslice
    simp only [hslice, ok_bind, parenDepth_lower]
    rfl
  have hfirst := findSome?_closing (fun before => byteLength (a ++ before)) b
  rw [regionEnd, findAccepted_eq isIdentifier_end haccept, hwords, hfirst, region_eq]
  cases closing? b with
  | none => exact congrArg Except.ok (byteLength_lower (a ++ b))
  | some found => rfl

end Declaration

/-! ## Groups -/

/-- One round of the search for the closing bracket: to the next bracket behind the index, which is counted. -/
def bracketRound (opening closing : Char) (cs : List Char) :
    Nat × Int → Checked (Round (Nat × Int) (Option (List Char × List Char)))
  | (index, counter) => do
    let rest ← sliceFrom index cs
    match findChar? (fun c => c = opening || c = closing) rest with
    | none => return .done none
    | some n =>
      let index := index + n
      let rest ← sliceFrom index cs
      let (counter, index) :=
        if rest.head? = some opening then (counter + 1, index + opening.utf8Size)
        else (counter - 1, index + closing.utf8Size)
      if counter = -1 then
        let index ← minus index closing.utf8Size
        let parts ← splitAt index cs
        return .done (some parts)
      else return .again (index, counter)

/-- The text up to the closing bracket that matches an opening one just before the text, and the text from that bracket
on. -/
def untilUnbalanced (opening closing : Char) (cs : List Char) : Checked (Option (List Char × List Char)) :=
  rounds (bracketRound opening closing cs) (byteLength cs + 1) (0, 0)

/-- The group in parentheses at the start of a text, and what follows it. -/
def group? (cs : List Char) : Checked (Option (List Char × List Char)) :=
  match afterStart? ['('] (dropGaps cs) with
  | none => return none
  | some start => do
    match ← untilUnbalanced '(' ')' (dropGaps start) with
    | none => return none
    | some (inner, rest) => return (afterStart? [')'] rest).map fun rest => (inner, rest)

section Brackets
variable {opening closing : Char} {a x y cs : List Char}

theorem findChar?_plain {p : Char → Bool} (hcs : ∀ c ∈ cs, p c = false) : findChar? p cs = none := by
  refine if_neg ?_
  simpa using hcs

theorem findChar?_append {p : Char → Bool} {d : Char} (hx : ∀ c ∈ x, p c = false) (hd : p d = true)
    (y : List Char) : findChar? p (x ++ d :: y) = some (byteLength x) := by
  have hx' : ∀ c ∈ x, (!p c) = true := fun c hc => by simp [hx c hc]
  have hany : (x ++ d :: y).any p = true := by simp [hd]
  rw [findChar?, if_pos hany, List.takeWhile_append_of_pos hx', List.takeWhile_cons_of_neg (by simp [hd]),
    List.append_nil]

/-- A text has no brackets, or there is a first one. -/
theorem plain_or_bracket (opening closing : Char) (cs : List Char) :
    (∀ c ∈ cs, c ≠ opening ∧ c ≠ closing) ∨
      ∃ x d y, cs = x ++ d :: y ∧ (∀ c ∈ x, c ≠ opening ∧ c ≠ closing) ∧ (d = opening ∨ d = closing) := by
  induction cs with
  | nil => exact .inl (List.forall_mem_nil _)
  | cons c cs ih =>
    by_cases hc : c = opening ∨ c = closing
    · exact .inr ⟨[], c, cs, rfl, List.forall_mem_nil _, hc⟩
    · rw [not_or] at hc
      rcases ih with hplain | ⟨x, d, y, rfl, hx, hd⟩
      · exact .inl (List.forall_mem_cons.2 ⟨hc, hplain⟩)
      · exact .inr ⟨c :: x, d, y, rfl, List.forall_mem_cons.2 ⟨hc, hx⟩, hd⟩

/-! ### One round -/

theorem bracketRound_plain {counter : Int} (hy : ∀ c ∈ y, c ≠ opening ∧ c ≠ closing) :
    bracketRound opening closing (a ++ y) (byteLength a, counter) = .ok (.done none) := by
  have hnone : findChar? (fun c => c = opening || c = closing) y = none :=
    findChar?_plain fun c hc => by simp [hy c hc]
  simp only [bracketRound, sliceFrom_append, ok_bind, hnone]
  rfl

/-- A round that comes to an opening bracket, or to a closing one that matches it, goes on behind the bracket. The
first closing bracket that matches none ends the loop. -/
theorem bracketRound_bracket {d : Char} (hx : ∀ c ∈ x, c ≠ opening ∧ c ≠ closing) (hd : d = opening ∨ d = closing)
    (depth : Nat) :
    bracketRound opening closing (a ++ (x ++ d :: y)) (byteLength a, (depth : Int)) = .ok (
      if d = opening then .again (byteLength (a ++ (x ++ [d])), ((depth + 1 : Nat) : Int))
      else
        match depth with
        | 0 => .done (some (a ++ x, d :: y))
        | depth + 1 => .again (byteLength (a ++ (x ++ [d])), (depth : Int))) := by
  have hfound : findChar? (fun c => c = opening || c = closing) (x ++ d :: y) = some (byteLength x) :=
    findChar?_append (fun c hc => by simp [hx c hc]) (by simpa using hd) y
  have hindex : byteLength a + byteLength x = byteLength (a ++ x) := (byteLength_append a x).symm
  have hrest : sliceFrom (byteLength (a ++ x)) (a ++ (x ++ d :: y)) = .ok (d :: y) := by
    rw [← List.append_assoc, sliceFrom_append]
  have hbehind : byteLength (a ++ x) + d.utf8Size = byteLength (a ++ (x ++ [d])) := by
    rw [← List.append_assoc, byteLength_concat]
  simp only [bracketRound, sliceFrom_append, ok_bind, hfound, hindex, hrest, List.head?_cons, Option.some.injEq]
  by_cases hopen : d = opening
  · have hcounter : ¬ (depth : Int) + 1 = -1 := by omega
    rw [if_pos hopen, if_pos hopen, ← hopen]
    simp only [if_neg hcounter, hbehind]
    rfl
  · obtain rfl : d = closing := hd.resolve_left hopen
    rw [if_neg hopen, if_neg hopen]
    cases depth with
    | zero =>
      have hminus : minus (byteLength (a ++ x) + d.utf8Size) d.utf8Size = .ok (byteLength (a ++ x)) := by
        simp [minus]
      have hsplit : splitAt (byteLength (a ++ x)) (a ++ (x ++ d :: y)) = .ok (a ++ x, d :: y) := by
        rw [← List.append_assoc, splitAt_append]
      have hcounter : ((0 : Nat) : Int) - 1 = -1 := rfl
      simp only [hcounter, if_true, hminus, ok_bind, hsplit, pure_eq_ok]
    | succ depth =>
      have hcounter : ((depth + 1 : Nat) : Int) - 1 = depth := by omega
      have hopened : ¬ (depth : Int) = -1 := by omega
      simp only [hcounter, if_neg hopened, hbehind]
      rfl

/-! ### All rounds -/

/-- What is no bracket does not matter. -/
theorem untilUnbalanced_plain (hx : ∀ c ∈ x, c ≠ opening ∧ c ≠ closing) (depth : Nat) (y : List Char) :
    Entity.untilUnbalanced opening closing depth (x ++ y) =
      (Entity.untilUnbalanced opening closing depth y).map fun o => (x ++ o.1, o.2) := by
  induction x with
  | nil => simp
  | cons c x ih =>
    obtain ⟨⟨hopen, hclose⟩, hx⟩ := List.forall_mem_cons.1 hx
    simp [Entity.untilUnbalanced, hopen, hclose, ih hx, Function.comp_def]

theorem untilUnbalanced_eq (opening closing : Char) (cs : List Char) :
    untilUnbalanced opening closing cs = .ok (Entity.untilUnbalanced opening closing 0 cs) := by
  -- The counter is the depth, and what is found from the index on is what is to be found.
  let inv (s : Nat × Int) : Prop := ∃ a b depth, cs = a ++ b ∧ s = (byteLength a, ((depth : Nat) : Int)) ∧
    Entity.untilUnbalanced opening closing 0 cs =
      (Entity.untilUnbalanced opening closing depth b).map fun o => (a ++ o.1, o.2)
  refine rounds_eq inv (fun s => byteLength cs - s.1) ?_ ⟨[], cs, 0, rfl, rfl, by simp⟩ (by omega)
  rintro _ ⟨a, b, depth, rfl, rfl, hanswer⟩
  rcases plain_or_bracket opening closing b with hplain | ⟨x, d, y, rfl, hx, hd⟩
  · left
    have hnone : Entity.untilUnbalanced opening closing depth b = none := by
      simpa [Entity.untilUnbalanced] using untilUnbalanced_plain hplain depth []
    rw [bracketRound_plain hplain, hanswer, hnone]
    rfl
  · have hless : byteLength (a ++ (x ++ d :: y)) - byteLength (a ++ (x ++ [d])) <
        byteLength (a ++ (x ++ d :: y)) - byteLength a := by
      have hpos := d.utf8Size_pos
      simp only [byteLength_append, byteLength]
      omega
    rw [untilUnbalanced_plain hx, Option.map_map] at hanswer
    rw [bracketRound_bracket hx hd, hanswer]
    by_cases hopen : d = opening
    · have hgoOn : Entity.untilUnbalanced opening closing depth (d :: y) =
          (Entity.untilUnbalanced opening closing (depth + 1) y).map fun o => (d :: o.1, o.2) := by
        simp [Entity.untilUnbalanced, hopen]
      right
      rw [if_pos hopen]
      refine ⟨_, rfl, ⟨a ++ (x ++ [d]), y, depth + 1, by simp, rfl, ?_⟩, hless⟩
      rw [hanswer, hgoOn, Option.map_map]
      simp [Function.comp_def]
    · obtain rfl : d = closing := hd.resolve_left hopen
      rw [if_neg hopen]
      cases depth with
      | zero =>
        left
        have hend : Entity.untilUnbalanced opening d 0 (d :: y) = some ([], d :: y) := by
          simp [Entity.untilUnbalanced, hopen]
        simp [hend]
      | succ depth =>
        have hgoOn : Entity.untilUnbalanced opening d (depth + 1) (d :: y) =
            (Entity.untilUnbalanced opening d depth y).map fun o => (d :: o.1, o.2) := by
          simp [Entity.untilUnbalanced, hopen]
        right
        refine ⟨_, rfl, ⟨a ++ (x ++ [d]), y, depth, by simp, rfl, ?_⟩, hless⟩
        rw [hanswer, hgoOn, Option.map_map]
        simp [Function.comp_def]

end Brackets

/-! ## Clauses -/

/-- What stands in the first group behind a keyword. -/
def clauseBody (keyword cs : List Char) : Checked (List Char) := do
  let body ← findAccepted (cs.map Char.toLower) keyword (fun position => do
    let start ← sliceFrom (position + byteLength keyword) cs
    let group ← group? start
    return group.map (·.1)) 0
  return body.getD []

/-- Where a text is being divided: the parts so far, the depth, and where the next part starts. -/
structure Division where
  parts : List (List Char)
  depth : Int
  start : Nat

/-- Divides the text at the character when it is a separator outside of parentheses. -/
def Division.step (sep : Char) (cs : List Char) (s : Division) : Nat × Char → Checked Division
  | (position, c) => do
    if c = '(' then return { s with depth := s.depth + 1 }
    else if c = ')' then return { s with depth := s.depth - 1 }
    else if c = sep ∧ s.depth = 0 then
      let part ← slice s.start position cs
      return { s with parts := s.parts ++ [trim part], start := position + c.utf8Size }
    else return s

/-- The characters of a text with their positions, from a position on. -/
def charPositions : Nat → List Char → List (Nat × Char)
  | _, [] => []
  | position, c :: cs => (position, c) :: charPositions (position + c.utf8Size) cs

/-- The pieces of a text between separators outside of parentheses, trimmed, those with nothing in them left out. -/
def splitTopLevel (sep : Char) (cs : List Char) : Checked (List (List Char)) := do
  let s ← (charPositions 0 cs).foldlM (Division.step sep cs) ⟨[], 0, 0⟩
  let last ← sliceFrom s.start cs
  return (s.parts ++ [trim last]).filter fun part => !part.isEmpty

section Clauses
variable {sep : Char} {a x y : List Char}

theorem group?_eq (cs : List Char) : group? cs = .ok (Entity.group? cs) := by
  cases hopen : dropGaps cs with
  | nil => simp [group?, Entity.group?, hopen, afterStart?]
  | cons c start =>
    by_cases hc : c = '('
    · subst hc
      simp only [group?, Entity.group?, hopen, afterStart?, if_true, untilUnbalanced_eq, ok_bind]
      cases hfound : Entity.untilUnbalanced '(' ')' 0 (dropGaps start) with
      | none => rfl
      | some found =>
        obtain ⟨inner, rest⟩ := found
        obtain ⟨after, rfl, -, -⟩ := untilUnbalanced_eq_some hfound
        rfl
    · simp [group?, Entity.group?, hopen, afterStart?, hc]

theorem clauseBody_eq {keyword : List Char} (hk : isIdentifier keyword = true) (cs : List Char) :
    clauseBody keyword cs = .ok (Entity.clauseBody keyword cs) := by
  have haccept : ∀ o ∈ words keyword none cs, (do
      let start ← sliceFrom (byteLength o.1 + byteLength keyword) cs
      let group ← group? start
      return group.map (·.1) : Checked (Option (List Char))) = .ok ((Entity.group? o.2).map (·.1)) := by
    rintro ⟨before, after⟩ ho
    obtain ⟨w, rfl, hw, -, -⟩ := of_mem_words ho
    rw [sliceFrom_behind hw, ok_bind, group?_eq, ok_bind, pure_eq_ok]
  rw [clauseBody, findAccepted_start hk haccept, Entity.clauseBody, occurrences_eq_words hk, List.map_findSome?]
  rfl

/-- One character either ends a part, which is a slice, or leaves the depth that it leads to. -/
theorem Division.step_eq {s : Division} {c : Char} (hs : s.start = byteLength a) :
    s.step sep (a ++ (x ++ c :: y)) (byteLength (a ++ x), c) = .ok (
      if c ≠ '(' ∧ c ≠ ')' ∧ c = sep ∧ s.depth = 0 then
        { s with parts := s.parts ++ [trim x], start := byteLength (a ++ (x ++ [c])) }
      else { s with depth := s.depth + depthChange c }) := by
  have hpart : slice (byteLength a) (byteLength (a ++ x)) (a ++ (x ++ c :: y)) = .ok x := slice_append a x (c :: y)
  have hbehind : byteLength (a ++ x) + c.utf8Size = byteLength (a ++ (x ++ [c])) := by
    rw [← List.append_assoc, byteLength_concat]
  dsimp only [Division.step]
  by_cases hopen : c = '('
  · simp [hopen, depthChange]
  · by_cases hclose : c = ')'
    · simp [hclose, depthChange, pure, Except.pure, Int.sub_eq_add_neg]
    · by_cases hsep : c = sep ∧ s.depth = 0
      · rw [if_neg hopen, if_neg hclose, if_pos hsep, if_pos ⟨hopen, hclose, hsep⟩, hs, hpart]
        simp only [ok_bind, hbehind]
        rfl
      · rw [if_neg hopen, if_neg hclose, if_neg hsep, if_neg fun h => hsep h.2.2]
        simp [depthChange, hopen, hclose]

/-- From any character on, the parts are those so far and the pieces that are left, the first of which goes on
with what has been passed since the last separator. -/
theorem division_run {s : Division} (hs : s.start = byteLength a) :
    ∃ s' last, (charPositions (byteLength (a ++ x)) y).foldlM (Division.step sep (a ++ (x ++ y))) s = .ok s' ∧
      sliceFrom s'.start (a ++ (x ++ y)) = .ok last ∧
        s'.parts ++ [trim last] = s.parts ++ (onFirst x (topLevelPieces sep s.depth y)).map trim := by
  induction y generalizing a x s with
  | nil => exact ⟨s, x, rfl, by simp [hs, sliceFrom_append], by simp [topLevelPieces, onFirst]⟩
  | cons c y ih =>
    have hbehind : byteLength (a ++ x) + c.utf8Size = byteLength (a ++ (x ++ [c])) := by
      rw [← List.append_assoc, byteLength_concat]
    rw [charPositions, List.foldlM_cons, Division.step_eq hs, hbehind, ok_bind]
    by_cases hsep : c ≠ '(' ∧ c ≠ ')' ∧ c = sep ∧ s.depth = 0
    · obtain ⟨s', last, hrun, hlast, hparts⟩ :=
        ih (a := a ++ (x ++ [c])) (x := [])
          (s := { s with parts := s.parts ++ [trim x], start := byteLength (a ++ (x ++ [c])) }) rfl
      rw [if_pos hsep]
      refine ⟨s', last, by simpa using hrun, by simpa using hlast, ?_⟩
      rw [hparts, topLevelPieces, if_pos hsep, onFirst_nil (topLevelPieces_ne_nil _ _ _)]
      simp [onFirst]
    · obtain ⟨s', last, hrun, hlast, hparts⟩ :=
        ih (a := a) (x := x ++ [c]) (s := { s with depth := s.depth + depthChange c }) hs
      rw [if_neg hsep]
      refine ⟨s', last, by simpa using hrun, by simpa using hlast, ?_⟩
      rw [hparts, topLevelPieces_cons hsep, onFirst_onFirst]

theorem splitTopLevel_eq (sep : Char) (cs : List Char) : splitTopLevel sep cs = .ok (Entity.splitTopLevel sep cs) := by
  obtain ⟨s', last, hrun, hlast, hparts⟩ : ∃ s' last,
      (charPositions 0 cs).foldlM (Division.step sep cs) ⟨[], 0, 0⟩ = .ok s' ∧ sliceFrom s'.start cs = .ok last ∧
        s'.parts ++ [trim last] = [] ++ (onFirst [] (topLevelPieces sep 0 cs)).map trim :=
    division_run (a := []) (x := []) rfl
  rw [onFirst_nil (topLevelPieces_ne_nil _ _ _)] at hparts
  rw [splitTopLevel, hrun, ok_bind, hlast, ok_bind, hparts]
  rfl

end Clauses

end CoreForge.Entity.Sliced
