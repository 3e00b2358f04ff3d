import CoreForge.Proofs.Declarations
/-!
# Headers and what comes behind

Every search of the reading is over a whole text, and each is cut short by what it finds: the
header by the word behind its name (`header?_append`), the declaration by its header, the
region by its `end`. With something added that no identifier goes on into, the same places are
found (`declaration?_append`, `closing?_append`), and what was found before the added text
starts is found without it (`declaration?_of_append`, `closing?_of_append`).
-/

namespace CoreForge.Entity

open CoreForge.Text

/-! ## The places of a word -/

/-- Behind a later place of a word less of the text is left. -/
theorem words_pairwise (keyword : List Char) (previous : Option Char) (cs : List Char) :
    (words keyword previous cs).Pairwise fun o o' => o'.2 <:+ o.2 := by
  induction cs generalizing previous with
  | nil => exact .nil
  | cons c cs ih =>
    have hlater : ((words keyword (some c) cs).map fun o => (c :: o.1, o.2)).Pairwise fun o o' => o'.2 <:+ o.2 :=
      List.pairwise_map.2 (ih (some c))
    rw [words]
    cases hword : word? keyword previous (c :: cs) with
    | none => exact hlater
    | some after =>
      refine List.pairwise_cons.2 ⟨List.forall_mem_map.2 fun o hmem => ?_, hlater⟩
      obtain ⟨before, after'⟩ := o
      obtain ⟨hafter, -⟩ := Option.filter_eq_some_iff.1 hword
      obtain ⟨w, hw, hlower⟩ := afterWord?_eq_some_iff.1 hafter
      obtain ⟨w', rfl, hlower', -, -⟩ := of_mem_words hmem
      -- Both are what the text ends with, and the later one is the shorter.
      have hsuffix : after' <:+ c :: (before ++ (w' ++ after')) := ⟨c :: (before ++ w'), by simp⟩
      refine List.suffix_of_suffix_length_le hsuffix ⟨w, hw.symm⟩ ?_
      have hsame : w.length = w'.length := by
        rw [← List.length_map (f := Char.toLower), hlower, ← hlower', List.length_map]
      have htotal := congrArg List.length hw
      simp only [List.length_cons, List.length_append] at htotal
      dsimp only
      omega

/-! ## Headers -/

theorem cons_sublist_dropWhile {p : Char → Bool} {x : Char} {xs cs : List Char} (hx : p x = false)
    (h : (x :: xs).Sublist cs) : (x :: xs).Sublist (cs.dropWhile p) := by
  induction cs with
  | nil => cases h
  | cons c cs ih =>
    cases hc : p c with
    | false => rwa [List.dropWhile_cons_of_neg (by simp [hc])]
    | true =>
      rw [List.dropWhile_cons_of_pos hc]
      cases h with
      | cons _ h => exact ih h
      | cons_cons _ h =>
        rw [hx] at hc
        cases hc

theorem dropWhile_append_of_ne_nil {p : Char → Bool} {a : List Char} (h : a.dropWhile p ≠ []) (b : List Char) :
    (a ++ b).dropWhile p = a.dropWhile p ++ b := by
  rw [List.dropWhile_append, if_neg (by simpa using h)]

/-- A text with room for a header: a character of a name, a gap, and what comes behind. -/
def HasRoom (cs : List Char) : Prop :=
  ∃ n g x, isIdentChar n = true ∧ isGap g = true ∧ isGap x = false ∧ [n, g, x].Sublist cs

theorem HasRoom.mono {a b : List Char} (ha : HasRoom a) (h : a.Sublist b) : HasRoom b := by
  obtain ⟨n, g, x, hn, hg, hx, hsub⟩ := ha
  exact ⟨n, g, x, hn, hg, hx, hsub.trans h⟩

theorem dropGaps1?_eq_some {cs rest : List Char} (h : dropGaps1? cs = some rest) :
    ∃ g tail, cs = g :: tail ∧ isGap g = true ∧ rest = dropGaps tail := by
  cases cs with
  | nil => cases h
  | cons c cs =>
    simp only [dropGaps1?, Option.ite_none_right_eq_some, Option.some.injEq] at h
    exact ⟨c, cs, rfl, h.1, h.2.symm⟩

theorem dropGaps1?_append {cs : List Char} (h : dropGaps cs ≠ []) (b : List Char) :
    dropGaps1? (cs ++ b) = (dropGaps1? cs).map (· ++ b) := by
  cases cs with
  | nil => contradiction
  | cons c cs =>
    simp only [List.cons_append, dropGaps1?]
    split
    · rename_i hc
      rw [dropGaps, List.dropWhile_cons_of_pos hc] at h
      exact congrArg some (dropWhile_append_of_ne_nil h b)
    · rfl

theorem identifier?_eq_some {cs name rest : List Char} (h : identifier? cs = some (name, rest)) :
    ∃ c tail, cs = c :: tail ∧ isIdentChar c = true ∧ rest = tail.dropWhile isIdentChar := by
  have hname := all_isIdentChar (isIdentifier_of_identifier? h)
  cases cs with
  | nil => cases h
  | cons c cs =>
    simp only [identifier?, Option.ite_none_right_eq_some, Option.some.injEq, Prod.mk.injEq] at h
    obtain ⟨-, rfl, rfl⟩ := h
    exact ⟨c, cs, rfl, hname c (by simp), rfl⟩

/-- A header is not changed by what comes behind. -/
theorem header?_append {cs b : List Char} (hroom : HasRoom cs) (hb : isBoundary b.head? = true) :
    header? (cs ++ b) = (header? cs).map fun (name, rest) => (name, rest ++ b) := by
  obtain ⟨n, g, x, hn, hg, hx, hsub⟩ := hroom
  -- Something of the text is left after each step.
  have hleft : ∀ {c : Char} {cs tail : List Char}, (c :: cs).Sublist tail → tail ≠ [] := by
    rintro c cs _ hsub rfl
    cases hsub
  rw [header?, header?, dropGaps1?_append (hleft (cons_sublist_dropWhile (isGap_eq_false_of_isIdentChar hn) hsub))]
  cases hgap : dropGaps1? cs with
  | none => rfl
  | some start =>
    obtain ⟨g₁, tail₁, rfl, hg₁, rfl⟩ := dropGaps1?_eq_some hgap
    have hstart : [n, g, x].Sublist (dropGaps tail₁) := by
      have hdrop := cons_sublist_dropWhile (isGap_eq_false_of_isIdentChar hn) hsub
      rwa [List.dropWhile_cons_of_pos hg₁] at hdrop
    simp only [Option.map_some, Option.bind_eq_bind, Option.bind_some, identifier?_append_map (hleft hstart) hb]
    cases hname : identifier? (dropGaps tail₁) with
    | none => rfl
    | some found =>
      obtain ⟨name, behind⟩ := found
      obtain ⟨c, tail₂, htail₂, -, rfl⟩ := identifier?_eq_some hname
      have hbehind : [g, x].Sublist (tail₂.dropWhile isIdentChar) := by
        rw [htail₂] at hstart
        exact cons_sublist_dropWhile (isIdentChar_of_isGap hg) hstart.tail
      have hbehind' : dropGaps (tail₂.dropWhile isIdentChar) ≠ [] :=
        hleft (cons_sublist_dropWhile hx (List.sublist_of_cons_sublist hbehind))
      simp only [Option.map_some, Option.bind_some, dropGaps1?_append hbehind']
      cases hgap' : dropGaps1? (tail₂.dropWhile isIdentChar) with
      | none => rfl
      | some start =>
        obtain ⟨g₂, tail₃, htail₃, -, rfl⟩ := dropGaps1?_eq_some hgap'
        have hstart' : dropGaps tail₃ ≠ [] := by
          rw [htail₃] at hbehind
          exact hleft (cons_sublist_dropWhile hx hbehind.tail)
        have his : ∀ k ∈ "is".toList, isIdentChar k = true := all_isIdentChar (by decide)
        simp only [Option.map_some, Option.bind_some, afterWord?_append his hstart' (.inr hb)]
        cases hword : afterWord? "is".toList (dropGaps tail₃) with
        | none => rfl
        | some rest =>
          have hhead : isBoundary (rest ++ b).head? = isBoundary rest.head? := by
            cases rest with
            | nil => exact hb
            | cons d rest => rfl
          simp only [Option.map_some, Option.bind_some, hhead]
          split <;> rfl

/-- What is read of a header has room for it. -/
theorem header?_front {cs name rest : List Char} (h : header? cs = some (name, rest)) :
    ∃ front, cs = front ++ rest ∧ HasRoom front := by
  simp only [header?, Option.bind_eq_bind, Option.bind_eq_some_iff] at h
  obtain ⟨start, hgap, ⟨name, behind⟩, hname, start', hgap', rest, his, hend⟩ := h
  obtain ⟨g₁, tail₁, rfl, -, rfl⟩ := dropGaps1?_eq_some hgap
  obtain ⟨n, tail₂, htail₁, hn, rfl⟩ := identifier?_eq_some hname
  obtain ⟨g, tail₃, htail₂, hg, rfl⟩ := dropGaps1?_eq_some hgap'
  obtain ⟨w, htail₃, hlower⟩ := afterWord?_eq_some_iff.1 his
  simp only [Option.ite_none_right_eq_some, Option.some.injEq, Prod.mk.injEq] at hend
  obtain ⟨-, -, rfl⟩ := hend
  cases w with
  | nil => cases hlower
  | cons x w =>
    have hx : isIdentChar x = true := isIdentChar_of_lower (by rw [(List.cons.inj hlower).1]; decide)
    dsimp only at htail₂
    -- Each part is what is taken off, and what the next part starts with.
    have hsplit₁ : tail₁.takeWhile isGap ++ dropGaps tail₁ = tail₁ := List.takeWhile_append_dropWhile
    have hsplit₂ : tail₂.takeWhile isIdentChar ++ tail₂.dropWhile isIdentChar = tail₂ := List.takeWhile_append_dropWhile
    have hsplit₃ : tail₃.takeWhile isGap ++ dropGaps tail₃ = tail₃ := List.takeWhile_append_dropWhile
    rw [htail₁] at hsplit₁
    rw [htail₂] at hsplit₂
    rw [htail₃] at hsplit₃
    refine ⟨g₁ :: (tail₁.takeWhile isGap ++ n :: (tail₂.takeWhile isIdentChar ++ g :: (tail₃.takeWhile isGap ++ x :: w))),
      ?_, n, g, x, hn, hg, isGap_eq_false_of_isIdentChar hx, ?_⟩
    · conv_lhs => rw [← hsplit₁, ← hsplit₂, ← hsplit₃]
      simp
    · refine .cons _ (List.sublist_append_of_sublist_right (.cons_cons n ?_))
      refine List.sublist_append_of_sublist_right (.cons_cons g ?_)
      exact List.sublist_append_of_sublist_right (.cons_cons x (List.nil_sublist w))

theorem isBoundary_of_header? {cs name rest : List Char} (h : header? cs = some (name, rest)) :
    isBoundary rest.head? = true := by
  simp only [header?, Option.bind_eq_bind, Option.bind_eq_some_iff, Option.ite_none_right_eq_some] at h
  obtain ⟨_, -, _, -, _, -, _, -, hboundary, heq⟩ := h
  cases heq
  exact hboundary

/-! ## Declarations -/

theorem declaration?_eq (cs : List Char) :
    declaration? cs = (words "entity".toList none cs).findSome? fun o => header? o.2 := by
  rw [declaration?, occurrences_eq_words isIdentifier_entity]

/-- The declaration of a text is not changed by what comes behind its header. -/
theorem declaration?_append {a b name rest : List Char} (h : declaration? a = some (name, rest))
    (hb : isBoundary b.head? = true) : declaration? (a ++ b) = some (name, rest ++ b) := by
  rw [declaration?_eq] at h ⊢
  obtain ⟨earlier, o, later, hplaces, hheader, hnone⟩ := List.findSome?_eq_some_iff.1 h
  have hpairs := words_pairwise "entity".toList none a
  rw [hplaces, List.pairwise_append] at hpairs
  obtain ⟨front, hfront, hroom⟩ := header?_front hheader
  have hroom : HasRoom o.2 := hroom.mono (hfront ▸ List.sublist_append_left _ _)
  -- An earlier place has the header behind it, and so there is room for one that would have been found.
  have hearlier : ∀ o' ∈ earlier, header? (o'.2 ++ b) = none := fun o' ho' => by
    have hroom' := hroom.mono (hpairs.2.2 o' ho' o (by simp)).sublist
    rw [header?_append hroom' hb, hnone o' ho']
    rfl
  have hskip : ((earlier.map fun o => (o.1, o.2 ++ b)).findSome? fun o => header? o.2) = none := by
    rw [List.findSome?_map]
    exact List.findSome?_eq_none_iff.2 hearlier
  rw [words_append isIdentifier_entity (.inr hb), hplaces, List.map_append, List.append_assoc, List.findSome?_append, hskip]
  simp [header?_append hroom hb, hheader]

/-- The place of the word that closes a declaration: the first one outside of parentheses. -/
def closing? (cs : List Char) : Option (List Char × List Char) :=
  (words "end".toList none cs).find? fun o => parenDepth o.1 = 0

theorem region_eq (cs : List Char) : region cs = ((closing? cs).map (·.1)).getD cs := by
  unfold region closing?
  rw [occurrences_eq_words isIdentifier_end]
  cases (words "end".toList none cs).find? fun o => parenDepth o.1 = 0 <;> rfl

theorem region_prefix (cs : List Char) : region cs <+: cs := by
  rw [region_eq]
  cases hclosing : closing? cs with
  | none => exact List.prefix_refl cs
  | some found =>
    obtain ⟨before, after⟩ := found
    obtain ⟨w, rfl, -⟩ := of_mem_words (List.mem_of_find?_eq_some hclosing)
    exact List.prefix_append before (w ++ after)

theorem region_of_closing? {cs body after : List Char} (h : closing? cs = some (body, after)) : region cs = body := by
  rw [region_eq, h]
  rfl

theorem closing?_append {a b body after : List Char} (h : closing? a = some (body, after))
    (hb : isBoundary b.head? = true) : closing? (a ++ b) = some (body, after ++ b) := by
  rw [closing?] at h ⊢
  rw [words_append isIdentifier_end (.inr hb), List.find?_append, List.find?_map]
  have hfound : (words "end".toList none a).find? ((fun o => decide (parenDepth o.1 = 0)) ∘ fun o => (o.1, o.2 ++ b)) =
      some (body, after) := h
  rw [hfound]
  rfl

theorem mem_words_of_declaration? {cs name rest : List Char} (h : declaration? cs = some (name, rest)) :
    ∃ o ∈ words "entity".toList none cs, ∃ front, o.2 = front ++ rest ∧ HasRoom front ∧ header? o.2 = some (name, rest) := by
  rw [declaration?_eq] at h
  obtain ⟨o, ho, hheader⟩ := List.exists_of_findSome?_eq_some h
  obtain ⟨front, hfront, hroom⟩ := header?_front hheader
  exact ⟨o, ho, front, hfront, hroom, hheader⟩

theorem declaration?_suffix {cs name rest : List Char} (h : declaration? cs = some (name, rest)) : rest <:+ cs := by
  obtain ⟨⟨before, after⟩, ho, front, hfront, -, -⟩ := mem_words_of_declaration? h
  obtain ⟨w, rfl, -, -, -⟩ := of_mem_words ho
  dsimp only at hfront
  exact ⟨before ++ (w ++ front), by simp [hfront]⟩

/-- What is found before a text starts is found without it. -/
theorem declaration?_of_append {a b name rest : List Char} (hb : isBoundary b.head? = true)
    (h : declaration? (a ++ b) = some (name, rest)) (hlength : b.length ≤ rest.length) :
    ∃ rest', declaration? a = some (name, rest') ∧ rest = rest' ++ b := by
  cases ha : declaration? a with
  | some found =>
    obtain ⟨name', rest'⟩ := found
    rw [declaration?_append ha hb] at h
    cases h
    exact ⟨rest', rfl, rfl⟩
  | none =>
    exfalso
    obtain ⟨o, ho, front, hfront, hroom, hheader⟩ := mem_words_of_declaration? h
    rw [words_append isIdentifier_entity (.inr hb), List.mem_append, List.mem_map, List.mem_map] at ho
    rcases ho with ⟨o, ho, rfl⟩ | ⟨⟨before, after⟩, ho, rfl⟩
    · have hstarts : front <+: o.2 := by
        refine List.prefix_of_prefix_length_le ⟨rest, hfront.symm⟩ (List.prefix_append _ _) ?_
        have htotal := congrArg List.length hfront
        simp only [List.length_append] at htotal
        omega
      rw [header?_append (hroom.mono hstarts.sublist) hb] at hheader
      rw [declaration?_eq, List.findSome?_eq_none_iff] at ha
      rw [ha o ho] at hheader
      cases hheader
    · obtain ⟨w, rfl, hlower, -, -⟩ := of_mem_words ho
      have hword : 0 < w.length := by
        rw [← List.length_map (f := Char.toLower), hlower]
        decide
      have htotal := congrArg List.length hfront
      simp only [List.length_append] at htotal hlength
      omega

theorem closing?_of_append {a b body : List Char} (hb : isBoundary b.head? = true)
    (h : closing? (a ++ b) = some (body, b)) : closing? a = some (body, []) := by
  cases ha : closing? a with
  | some found =>
    obtain ⟨body', after⟩ := found
    rw [closing?_append ha hb] at h
    obtain ⟨rfl, hafter⟩ := Prod.mk.inj (Option.some.inj h)
    rw [List.append_left_eq_self.1 hafter]
  | none =>
    exfalso
    have hmem := List.mem_of_find?_eq_some h
    have hdepth := List.find?_some h
    rw [words_append isIdentifier_end (.inr hb), List.mem_append, List.mem_map, List.mem_map] at hmem
    rcases hmem with ⟨o, ho, heq⟩ | ⟨⟨before, after⟩, ho, heq⟩
    · obtain ⟨rfl, -⟩ := Prod.mk.inj heq
      exact List.find?_eq_none.1 ha o ho hdepth
    · obtain ⟨w, hw, hlower, -, -⟩ := of_mem_words ho
      cases heq
      have hword : w.length = 3 := by simpa using congrArg List.length hlower
      have htotal := congrArg List.length hw
      simp only [List.length_append] at htotal
      omega

end CoreForge.Entity
