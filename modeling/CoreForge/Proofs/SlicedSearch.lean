import CoreForge.Proofs.Caseless
import CoreForge.Proofs.Keywords
import CoreForge.Proofs.Slices
/-!
# Keywords by byte positions

A keyword is looked for in a text in lower case, from a byte position on; behind an occurrence inside of an identifier
the search goes on. It finds the first place of the keyword as a whole word (`findKeyword_eq`), and a loop over its
results goes through all places in order (`findAccepted_eq`). A position found in lower case divides the text itself.
-/

namespace CoreForge.Entity.Sliced

open CoreForge.Text

/-! ## Patterns and keywords -/

/-- The position of the first occurrence of a pattern. -/
def find? (pattern cs : List Char) : Option Nat := (cut? pattern cs).map fun o => byteLength o.1

/-- The position of the first character of a class. -/
def findChar? (p : Char → Bool) (cs : List Char) : Option Nat :=
  if cs.any p then some (byteLength (cs.takeWhile fun c => !p c)) else none

/-- One round of the search for a keyword: to the next occurrence, which counts when it is a whole word. Behind one
inside of an identifier the search goes on. -/
def keywordRound (text keyword : List Char) (start : Nat) : Checked (Round Nat (Option Nat)) :=
  match splitAtByte? start text with
  | none => return .done none
  | some (_, rest) =>
    match find? keyword rest with
    | none => return .done none
    | some n => do
      let position := start + n
      let stop := position + byteLength keyword
      let before ← sliceTo position text
      let after ← sliceFrom stop text
      if isBoundary before.getLast? && isBoundary after.head? then return .done (some position)
      else return .again stop

/-- The position of the first occurrence of the keyword as a whole word, from a position on. -/
def findKeyword (text keyword : List Char) (start : Nat) : Checked (Option Nat) :=
  rounds (keywordRound text keyword) (byteLength text + 1) start

/-- One round of the search for an occurrence that is accepted. -/
def acceptRound {α : Type} (text keyword : List Char) (accept : Nat → Checked (Option α)) (start : Nat) :
    Checked (Round Nat (Option α)) := do
  match ← findKeyword text keyword start with
  | none => return .done none
  | some position =>
    match ← accept position with
    | some answer => return .done (some answer)
    | none => return .again (position + byteLength keyword)

/-- What the first occurrence of a keyword that is accepted gives, from a position on. -/
def findAccepted {α : Type} (text keyword : List Char) (accept : Nat → Checked (Option α)) (start : Nat) :
    Checked (Option α) :=
  rounds (acceptRound text keyword accept) (byteLength text + 1) start

section Keywords
variable {keyword cs a b x y : List Char}

theorem afterWord?_lowered (h : cs.map Char.toLower = cs) : afterWord? keyword cs = afterStart? keyword cs := by
  induction keyword generalizing cs with
  | nil => rfl
  | cons k ks ih =>
    cases cs with
    | nil => rfl
    | cons c cs =>
      obtain ⟨hc, hcs⟩ := List.cons.inj h
      rw [afterWord?, afterStart?, hc, ih hcs]

theorem word?_lowered (hlower : cs.map Char.toLower = cs) (h : afterStart? keyword cs = none) (previous : Option Char) :
    word? keyword previous cs = none := by
  rw [word?, afterWord?_lowered hlower, h]
  rfl

/-! ### In a text in lower case -/

theorem words_of_cut?_none (hlower : cs.map Char.toLower = cs) (h : cut? keyword cs = none)
    (previous : Option Char) : words keyword previous cs = [] := by
  induction cs generalizing previous with
  | nil => rfl
  | cons c cs ih =>
    rw [cut?] at h
    split at h
    · cases h
    · rename_i hstart
      rw [words, word?_lowered hlower hstart, ih (List.cons.inj hlower).2 (Option.map_eq_none_iff.1 h)]
      rfl

/-- The first occurrence of a keyword is the first place, when it is a whole word, and the other places are behind
it. -/
theorem words_of_cut? (hk : ∀ k ∈ keyword, isIdentChar k = true) (hne : keyword ≠ [])
    (hlower : cs.map Char.toLower = cs) (h : cut? keyword cs = some (x, y)) (previous : Option Char) :
    words keyword previous cs =
      (if isBoundary (x.getLast?.or previous) && isBoundary y.head? then [(x, y)] else []) ++
        (words keyword keyword.getLast? y).map fun o => (x ++ (keyword ++ o.1), o.2) := by
  induction cs generalizing previous x with
  | nil => simp [cut?, hne] at h
  | cons c cs ih =>
    rw [cut?] at h
    split at h
    · rename_i rest hstart
      cases h
      have hcs : c :: cs = keyword ++ y := afterStart?_eq_some_iff.1 hstart
      have hkeyword : keyword.map Char.toLower = keyword := by
        rw [hcs, List.map_append] at hlower
        exact List.append_inj_left hlower (by simp)
      rw [hcs, words_match hk hne hkeyword]
      simp
    · rename_i hstart
      obtain ⟨⟨x', y'⟩, hcut, heq⟩ := Option.map_eq_some_iff.1 h
      cases heq
      rw [words, word?_lowered hlower hstart, ih (List.cons.inj hlower).2 hcut, getLast?_cons_or]
      split <;> simp [Function.comp_def]

theorem keywordRound_none (h : cut? keyword b = none) :
    keywordRound (a ++ b) keyword (byteLength a) = .ok (.done none) := by
  rw [keywordRound, splitAtByte?_append]
  dsimp only
  rw [find?, h]
  rfl

/-- The slices around an occurrence. -/
theorem keywordRound_some (h : cut? keyword (x ++ (keyword ++ y)) = some (x, y)) :
    keywordRound (a ++ (x ++ (keyword ++ y))) keyword (byteLength a) = .ok (
      if isBoundary (a ++ x).getLast? && isBoundary y.head? then .done (some (byteLength (a ++ x)))
      else .again (byteLength (a ++ (x ++ keyword)))) := by
  have hposition : byteLength a + byteLength x = byteLength (a ++ x) := (byteLength_append a x).symm
  have hstop : byteLength (a ++ x) + byteLength keyword = byteLength (a ++ (x ++ keyword)) := by
    simp only [byteLength_append, Nat.add_assoc]
  have hbefore : sliceTo (byteLength (a ++ x)) (a ++ (x ++ (keyword ++ y))) = .ok (a ++ x) :=
    sliceTo_eq_ok_iff.2 ⟨keyword ++ y, by simp, rfl⟩
  have hafter : sliceFrom (byteLength (a ++ (x ++ keyword))) (a ++ (x ++ (keyword ++ y))) = .ok y :=
    sliceFrom_eq_ok_iff.2 ⟨a ++ (x ++ keyword), by simp, rfl⟩
  rw [keywordRound, splitAtByte?_append]
  simp only [find?, h, Option.map_some, hposition, hstop, hbefore, hafter, ok_bind, pure_eq_ok]
  split <;> rfl

/-- The first whole word from a position on is found within as many rounds as there are bytes left. -/
theorem rounds_lowered (hk : ∀ k ∈ keyword, isIdentChar k = true) (hne : keyword ≠ [])
    (hlower : (a ++ b).map Char.toLower = a ++ b) {n : Nat} (hn : byteLength b < n) :
    rounds (keywordRound (a ++ b) keyword) n (byteLength a) =
      .ok ((words keyword a.getLast? b).head?.map fun o => byteLength (a ++ o.1)) := by
  -- What is found from the position that the loop has come to is what is to be found.
  let inv (start : Nat) : Prop := ∃ a' b', a ++ b = a' ++ b' ∧ start = byteLength a' ∧
    (words keyword a.getLast? b).head?.map (fun o => byteLength (a ++ o.1)) =
      (words keyword a'.getLast? b').head?.map fun o => byteLength (a' ++ o.1)
  have hbehind : byteLength (a ++ b) - byteLength a < n := by
    rwa [byteLength_append, Nat.add_sub_cancel_left]
  refine rounds_eq inv (fun start => byteLength (a ++ b) - start) ?_ ⟨a, b, rfl, rfl, rfl⟩ hbehind
  rintro _ ⟨a', b', htext, rfl, hanswer⟩
  have hlower' : b'.map Char.toLower = b' := by
    rw [htext, List.map_append] at hlower
    exact List.append_inj_right hlower (by simp)
  rw [hanswer, htext]
  cases hcut : cut? keyword b' with
  | none =>
    left
    rw [keywordRound_none hcut, words_of_cut?_none hlower' hcut]
    rfl
  | some found =>
    obtain ⟨x, y⟩ := found
    obtain ⟨rfl, -⟩ := cut?_eq_some hne hcut
    have hwords := words_of_cut? hk hne hlower' hcut a'.getLast?
    rw [← List.getLast?_append] at hwords
    rw [keywordRound_some hcut]
    split
    · rename_i hwhole
      left
      rw [hwords, if_pos hwhole]
      rfl
    · rename_i hinside
      right
      rw [if_neg hinside, List.nil_append] at hwords
      refine ⟨_, rfl, ⟨a' ++ (x ++ keyword), y, by simp [htext], rfl, ?_⟩, ?_⟩
      · have hlast : (a' ++ (x ++ keyword)).getLast? = keyword.getLast? := by
          rw [← List.append_assoc, List.getLast?_append_of_ne_nil _ hne]
        rw [hanswer, hwords, List.head?_map, Option.map_map, hlast]
        simp [Function.comp_def]
      · have hpos := byteLength_pos hne
        simp only [byteLength_append]
        omega

/-! ### In any text -/

theorem words_lower (hk : ∀ k ∈ keyword, isIdentChar k = true) (hne : keyword ≠ []) (previous : Option Char)
    (cs : List Char) :
    words keyword (previous.map Char.toLower) (cs.map Char.toLower) = (words keyword previous cs).map lowerBoth := by
  have hwords : ∀ previous cs, occurrences keyword 0 previous cs = words keyword previous cs :=
    fun previous cs => occurrences_skip hk hne 0 previous cs (Nat.zero_le _) (by simp)
  rw [← hwords, ← hwords, occurrences_lower]

/-- A position in the text in lower case is a position in the text. -/
theorem rounds_keywordRound (hk : ∀ k ∈ keyword, isIdentChar k = true) (hne : keyword ≠ []) (a : List Char) {n : Nat}
    (hn : byteLength b < n) :
    rounds (keywordRound ((a ++ b).map Char.toLower) keyword) n (byteLength a) =
      .ok ((words keyword a.getLast? b).head?.map fun o => byteLength (a ++ o.1)) := by
  have hlower : (a.map Char.toLower ++ b.map Char.toLower).map Char.toLower =
      a.map Char.toLower ++ b.map Char.toLower := by
    simp [Function.comp_def]
  have hfound := rounds_lowered hk hne hlower (by rwa [byteLength_lower])
  rw [← List.map_append, byteLength_lower, List.getLast?_map, words_lower hk hne, List.head?_map,
    Option.map_map] at hfound
  rw [hfound]
  congr 2
  funext o
  rw [Function.comp_apply, lowerBoth, ← List.map_append, byteLength_lower]

theorem findKeyword_eq (hk : isIdentifier keyword = true) (a b : List Char) :
    findKeyword ((a ++ b).map Char.toLower) keyword (byteLength a) =
      .ok ((words keyword a.getLast? b).head?.map fun o => byteLength (a ++ o.1)) := by
  apply rounds_keywordRound (all_isIdentChar hk) (ne_nil_of_isIdentifier hk)
  rw [byteLength_lower, byteLength_append]
  omega

/-- Positions count bytes, and an identifier that starts with the keyword is passed over. -/
example : findKeyword "é port_a é port(".toList "port".toList 0 = .ok (some 13) := by decide

/-- The length of a keyword is that of the word that stands in its place. -/
theorem byteLength_behind {w : List Char} (hw : w.map Char.toLower = keyword) (a : List Char) :
    byteLength a + byteLength keyword = byteLength (a ++ w) := by
  rw [← hw, byteLength_lower, byteLength_append]

theorem sliceFrom_behind {w : List Char} (hw : w.map Char.toLower = keyword) (a b : List Char) :
    sliceFrom (byteLength a + byteLength keyword) (a ++ (w ++ b)) = .ok b := by
  rw [byteLength_behind hw, ← List.append_assoc, sliceFrom_append]

theorem acceptRound_nil {α : Type} (hk : isIdentifier keyword = true) {accept : Nat → Checked (Option α)}
    (h : words keyword a.getLast? b = []) :
    acceptRound ((a ++ b).map Char.toLower) keyword accept (byteLength a) = .ok (.done none) := by
  rw [acceptRound, findKeyword_eq hk, h]
  rfl

/-- A round ends with what the next place gives, or goes on behind it. -/
theorem acceptRound_cons {α : Type} (hk : isIdentifier keyword = true) {accept : Nat → Checked (Option α)}
    {answer : Option α} {later : List (List Char × List Char)} {w : List Char} (hw : w.map Char.toLower = keyword)
    (h : words keyword a.getLast? b = (x, y) :: later) (haccept : accept (byteLength (a ++ x)) = .ok answer) :
    acceptRound ((a ++ b).map Char.toLower) keyword accept (byteLength a) =
      .ok (answer.elim (.again (byteLength (a ++ (x ++ w)))) fun found => .done (some found)) := by
  have hbehind : byteLength (a ++ x) + byteLength keyword = byteLength (a ++ (x ++ w)) := by
    rw [byteLength_behind hw, List.append_assoc]
  rw [acceptRound, findKeyword_eq hk, h, ok_bind, List.head?_cons, Option.map_some]
  dsimp only
  rw [haccept, ok_bind, hbehind]
  cases answer <;> rfl

/-- The places of a keyword are gone through in order, up to the first one that is accepted. -/
theorem findAccepted_eq {α : Type} (hk : isIdentifier keyword = true) {accept : Nat → Checked (Option α)}
    {f : List Char × List Char → Option α}
    (haccept : ∀ o ∈ words keyword a.getLast? b, accept (byteLength (a ++ o.1)) = .ok (f o)) :
    findAccepted ((a ++ b).map Char.toLower) keyword accept (byteLength a) =
      .ok ((words keyword a.getLast? b).findSome? f) := by
  -- The places from the position that the loop has come to are the last ones, and none before them is accepted.
  let inv (start : Nat) : Prop := ∃ d b' earlier, b = d ++ b' ∧ start = byteLength (a ++ d) ∧
    words keyword a.getLast? b = earlier ++ (words keyword (a ++ d).getLast? b').map (fun o => (d ++ o.1, o.2)) ∧
      earlier.findSome? f = none
  refine rounds_eq inv (fun start => byteLength ((a ++ b).map Char.toLower) - start) ?_
    ⟨[], b, [], rfl, by simp, by simp, rfl⟩ (by omega)
  rintro _ ⟨d, b', earlier, rfl, rfl, hplaces, hearlier⟩
  rw [hplaces, List.findSome?_append, hearlier, Option.none_or, ← List.append_assoc a d b']
  cases hlast : words keyword (a ++ d).getLast? b' with
  | nil =>
    left
    rw [acceptRound_nil hk hlast]
    rfl
  | cons o later =>
    obtain ⟨x, y⟩ := o
    obtain ⟨w, rfl, hw, rfl⟩ := words_eq_cons (all_isIdentChar hk) (ne_nil_of_isIdentifier hk) hlast
    have hplace : accept (byteLength (a ++ d ++ x)) = .ok (f (d ++ x, y)) := by
      rw [List.append_assoc]
      refine haccept (d ++ x, y) ?_
      rw [hplaces, hlast]
      simp
    rw [acceptRound_cons hk hw hlast hplace, List.map_cons, List.findSome?_cons]
    cases hf : f (d ++ x, y) with
    | some answer => exact .inl rfl
    | none =>
      right
      have hne : w ≠ [] := by
        rintro rfl
        exact ne_nil_of_isIdentifier hk hw.symm
      refine ⟨_, rfl, ⟨d ++ (x ++ w), y, earlier ++ [(d ++ x, y)], by simp, by simp, ?_, ?_⟩, ?_⟩
      · have hend : (a ++ (d ++ (x ++ w))).getLast? = w.getLast? := by
          rw [← List.append_assoc, ← List.append_assoc, List.getLast?_append_of_ne_nil _ hne]
        rw [hplaces, hlast, hend]
        simp [Function.comp_def]
      · rw [List.findSome?_append, hearlier]
        simp [hf]
      · have hpos := byteLength_pos hne
        simp only [byteLength_lower, byteLength_append]
        omega

/-- From the start of a text on, all places are gone through. -/
theorem findAccepted_start {α : Type} (hk : isIdentifier keyword = true) {accept : Nat → Checked (Option α)}
    {f : List Char × List Char → Option α}
    (haccept : ∀ o ∈ words keyword none cs, accept (byteLength o.1) = .ok (f o)) :
    findAccepted (cs.map Char.toLower) keyword accept 0 = .ok ((words keyword none cs).findSome? f) :=
  findAccepted_eq (a := []) hk haccept

end Keywords

end CoreForge.Entity.Sliced
