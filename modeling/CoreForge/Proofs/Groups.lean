import CoreForge.Proofs.Printing
/-!
# Groups behind a keyword

A clause is the first group behind its keyword. In a text in which no group follows the keyword
none is found, and parts that neither have such a group nor start with one make up such a text.
-/

namespace CoreForge.Entity

open CoreForge.Text Token

/-- No group follows the keyword anywhere in the text. -/
def OpensNone (keyword cs : List Char) : Prop := ∀ o ∈ words keyword none cs, (dropGaps o.2).head? ≠ some '('

instance (keyword cs : List Char) : Decidable (OpensNone keyword cs) := inferInstanceAs (Decidable (∀ _ ∈ _, _))

section Groups
variable {keyword a b cs : List Char}

theorem head?_dropGaps_append {c : Char} (ha : (dropGaps a).head? ≠ some c) (hb : (dropGaps b).head? ≠ some c) :
    (dropGaps (a ++ b)).head? ≠ some c := by
  rw [dropGaps, List.dropWhile_append]
  split
  · exact hb
  · rename_i h
    rw [List.head?_append_of_ne_nil _ (by simpa using h)]
    exact ha

theorem group?_eq_none (h : (dropGaps cs).head? ≠ some '(') : group? cs = none := by
  unfold group?
  split
  · rename_i rest hstart
    rw [hstart] at h
    exact absurd rfl h
  · rfl

theorem opensNone_of_words (h : words keyword none cs = []) : OpensNone keyword cs := by
  intro o ho
  rw [h] at ho
  cases ho

theorem mem_of_head?_dropGaps {c : Char} (h : (dropGaps cs).head? = some c) : c ∈ cs :=
  (List.dropWhile_sublist isGap).subset (List.mem_of_head? h)

theorem opensNone_of_not_mem (h : '(' ∉ cs) : OpensNone keyword cs := by
  rintro ⟨before, after⟩ ho hhead
  obtain ⟨w, rfl, -, -, -⟩ := of_mem_words ho
  exact h (by simp [mem_of_head?_dropGaps hhead])

theorem OpensNone.append (hk : isIdentifier keyword = true) (hab : Parted a b) (ha : OpensNone keyword a)
    (hb : OpensNone keyword b) (hstart : (dropGaps b).head? ≠ some '(') : OpensNone keyword (a ++ b) := by
  intro o ho
  rw [words_append hk hab, List.mem_append, List.mem_map, List.mem_map] at ho
  rcases ho with ⟨o, ho, rfl⟩ | ⟨o, ho, rfl⟩
  · exact head?_dropGaps_append (ha o ho) hstart
  · exact hb o ho

theorem OpensNone.behind (hk : isIdentifier keyword = true) (hab : Parted a b) (ha : words keyword none a = [])
    (hb : OpensNone keyword b) : OpensNone keyword (a ++ b) := by
  intro o ho
  rw [words_append hk hab, ha, List.map_nil, List.nil_append, List.mem_map] at ho
  obtain ⟨o, ho, rfl⟩ := ho
  exact hb o ho

theorem head?_dropGaps_identifier (hk : isIdentifier keyword = true) (b : List Char) :
    (dropGaps (keyword ++ b)).head? ≠ some '(' := by
  cases keyword with
  | nil => cases hk
  | cons k ks =>
    have hident := all_isIdentChar hk k (by simp)
    rw [List.cons_append, dropGaps, List.dropWhile_cons_of_neg (by simp [isGap_eq_false_of_isIdentChar hident])]
    intro hhead
    cases hhead
    cases hident

/-- The group of a clause is the one behind the keyword when there is none before. -/
theorem clauseBody_append (hk : isIdentifier keyword = true) (hlower : keyword.map Char.toLower = keyword)
    (hab : Parted a (keyword ++ b)) (ha : OpensNone keyword a) (hboundary : isBoundary b.head? = true)
    {body after : List Char} (hgroup : group? b = some (body, after)) : clauseBody keyword (a ++ (keyword ++ b)) = body := by
  obtain ⟨later, hlater⟩ := words_of_first hk hlower (a := []) rfl rfl hboundary
  have hplaces : words keyword none (keyword ++ b) = ([], b) :: later := hlater
  have hskip : ((words keyword none a).map fun o => (o.1, o.2 ++ (keyword ++ b))).findSome? (fun o => group? o.2) = none := by
    rw [List.findSome?_map]
    refine List.findSome?_eq_none_iff.2 fun o ho => group?_eq_none ?_
    exact head?_dropGaps_append (ha o ho) (head?_dropGaps_identifier hk b)
  rw [clauseBody, occurrences_eq_words hk, words_append hk hab, hplaces, List.findSome?_append, hskip]
  simp [hgroup]

/-- No group follows the keyword in the text, nor does the text start with a group. -/
structure NoGroup (keyword cs : List Char) : Prop where
  inside : OpensNone keyword cs
  start : (dropGaps cs).head? ≠ some '('

theorem noGroup_of_not_mem (h : '(' ∉ cs) : NoGroup keyword cs :=
  ⟨opensNone_of_not_mem h, fun hhead => h (mem_of_head?_dropGaps hhead)⟩

theorem NoGroup.append (hk : isIdentifier keyword = true) (hab : Delimited a b) (ha : NoGroup keyword a)
    (hb : NoGroup keyword b) : NoGroup keyword (a ++ b) :=
  ⟨ha.inside.append hk hab.parted hb.inside hb.start, head?_dropGaps_append ha.start hb.start⟩

theorem noGroup_printed (hk : isIdentifier keyword = true) {ts : List Token} (h : Printed ts cs)
    (htoken : ∀ t ∈ ts, NoGroup keyword t.text) : NoGroup keyword cs := by
  refine h.compose (P := NoGroup keyword) (fun gaps hgaps => noGroup_of_not_mem fun hmem => ?_)
    (fun _ _ => NoGroup.append hk) htoken
  cases hgaps _ hmem

end Groups

end CoreForge.Entity
