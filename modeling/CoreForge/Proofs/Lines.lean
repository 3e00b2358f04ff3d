import Mathlib.Data.List.DropRight
import CoreForge.Proofs.Comments
import CoreForge.Proofs.Keywords
/-!
# Lines

A text is its lines, and comments are taken off line by line: what is put together here is
what removing comments does to one line and to a line feed. A comment ends a line as if the
line ended there, and a text that goes on behind an identifier goes on without its comments.
-/

namespace CoreForge.Entity

open CoreForge.Text

/-! ## Line by line -/

theorem line_induction {motive : List Char → Prop} (line : ∀ l, '\n' ∉ l → motive l)
    (feed : ∀ l rest, '\n' ∉ l → motive rest → motive (l ++ '\n' :: rest)) (cs : List Char) : motive cs := by
  induction hn : cs.length using Nat.strong_induction_on generalizing cs with
  | _ n ih =>
    by_cases hfeed : '\n' ∈ cs
    · obtain ⟨l, rest, rfl, hl⟩ := List.eq_append_cons_of_mem hfeed
      have hlength : rest.length < n := by
        rw [← hn, List.length_append, List.length_cons]
        omega
      exact feed l rest hl (ih _ hlength rest rfl)
    · exact line cs hfeed

/-- A line without a carriage return at its end. -/
def chomp (line : List Char) : List Char := if line.getLast? = some '\r' then line.dropLast else line

theorem chomp_of_getLast? {line : List Char} (h : line.getLast? ≠ some '\r') : chomp line = line := if_neg h

theorem chomp_append (a : List Char) {b : List Char} (hb : b ≠ []) : chomp (a ++ b) = a ++ chomp b := by
  unfold chomp
  rw [List.getLast?_append_of_ne_nil _ hb, List.dropLast_append_of_ne_nil hb]
  split <;> rfl

theorem exists_eq_chomp_append (line : List Char) : ∃ rest, line = chomp line ++ rest ∧ ∀ c ∈ rest.head?, c = '\r' := by
  unfold chomp
  split
  · rename_i h
    refine ⟨['\r'], ?_, by simp⟩
    obtain ⟨l, rfl⟩ := List.getLast?_eq_some_iff.1 h
    simp
  · exact ⟨[], by simp⟩

theorem lines_feed {line : List Char} (h : '\n' ∉ line) (rest : List Char) :
    lines (line ++ '\n' :: rest) = chomp line :: lines rest := by
  induction line with
  | nil => simp [lines, chomp]
  | cons c line ih =>
    obtain ⟨hc, hline⟩ := not_or.1 (List.mem_cons.not.1 h)
    cases line with
    | nil =>
      by_cases hcr : c = '\r'
      · subst hcr
        rfl
      · rw [List.singleton_append, lines_cons (Ne.symm hc) (fun h => absurd h hcr), chomp_of_getLast? (by simpa using hcr)]
        rfl
    | cons d line =>
      have hd : d ≠ '\n' := by
        rintro rfl
        simp at hline
      rw [List.cons_append, lines_cons (Ne.symm hc) (by simpa using fun _ => hd), ih hline]
      rw [show c :: d :: line = [c] ++ (d :: line) from rfl, chomp_append _ (List.cons_ne_nil d line)]
      rfl

theorem lines_line {line : List Char} (h : '\n' ∉ line) (hne : line ≠ []) : lines line = [line] := by
  induction line with
  | nil => contradiction
  | cons c line ih =>
    obtain ⟨hc, hline⟩ := not_or.1 (List.mem_cons.not.1 h)
    have hhead : line.head? ≠ some '\n' := fun hhead => hline (List.mem_of_head? hhead)
    rw [lines_cons (Ne.symm hc) fun _ => hhead]
    cases line with
    | nil => rfl
    | cons d line =>
      rw [ih hline (List.cons_ne_nil d line)]
      rfl

theorem lines_eq_nil_iff {cs : List Char} : lines cs = [] ↔ cs = [] := by
  cases cs with
  | nil => simp [lines]
  | cons c cs => simp [lines_ne_nil]

theorem stripComments_line {line : List Char} (h : '\n' ∉ line) : stripComments line = dropComment line := by
  by_cases hne : line = []
  · subst hne
    rfl
  · rw [stripComments, lines_line h hne]
    rfl

/-- A line feed is kept when something follows it. -/
theorem stripComments_feed {line : List Char} (h : '\n' ∉ line) {rest : List Char} (hrest : rest ≠ []) :
    stripComments (line ++ '\n' :: rest) = dropComment (chomp line) ++ '\n' :: stripComments rest := by
  have hlines : (lines rest).map dropComment ≠ [] := by
    simpa [lines_eq_nil_iff] using hrest
  rw [stripComments, lines_feed h, List.map_cons, unlines_cons hlines]
  rfl

theorem stripComments_last_feed {line : List Char} (h : '\n' ∉ line) :
    stripComments (line ++ ['\n']) = dropComment (chomp line) := by
  rw [stripComments, lines_feed h]
  rfl

/-- What follows a line does not depend on it. -/
theorem stripComments_feed_congr {line line' : List Char} (h : '\n' ∉ line) (h' : '\n' ∉ line')
    (heq : dropComment (chomp line) = dropComment (chomp line')) (rest : List Char) :
    stripComments (line ++ '\n' :: rest) = stripComments (line' ++ '\n' :: rest) := by
  by_cases hrest : rest = []
  · rw [hrest, stripComments_last_feed h, stripComments_last_feed h', heq]
  · rw [stripComments_feed h hrest, stripComments_feed h' hrest, heq]

/-! ## Comments at the end of a line -/

theorem dropComment_of_no_comment {line : List Char} (h : ¬ ['-', '-'] <:+: line) : dropComment line = line := by
  rw [dropComment, (cut?_eq_none_iff (by simp)).2 h]

theorem dropComment_cut {a : List Char} (h : ¬ ['-', '-'] <:+: a ++ ['-']) (b : List Char) :
    dropComment (a ++ (['-', '-'] ++ b)) = a := by
  rw [dropComment, cut?_append (by simp) h]

/-- What a line consists of before a comment at its end, if it has one. -/
theorem dropComment_cases (line : List Char) :
    ¬ ['-', '-'] <:+: line ∧ dropComment line = line ∨
      ∃ rest, ¬ ['-', '-'] <:+: dropComment line ++ ['-'] ∧ line = dropComment line ++ (['-', '-'] ++ rest) := by
  by_cases h : ['-', '-'] <:+: line
  · obtain ⟨⟨a, b⟩, hcut⟩ := Option.ne_none_iff_exists'.1 (mt (cut?_eq_none_iff (by simp)).1 (not_not.2 h))
    obtain ⟨rfl, hfirst⟩ := cut?_eq_some (by simp) hcut
    exact .inr ⟨b, by rwa [dropComment_cut hfirst], by rw [dropComment_cut hfirst]⟩
  · exact .inl ⟨h, dropComment_of_no_comment h⟩

theorem no_comment_dropComment (line : List Char) : ¬ ['-', '-'] <:+: dropComment line := by
  rcases dropComment_cases line with ⟨h, heq⟩ | ⟨rest, h, -⟩
  · rwa [heq]
  · exact fun hwithin => h (hwithin.trans (List.prefix_append _ _).isInfix)

/-- What stands behind a comment belongs to it. -/
theorem dropComment_append_of_comment {line : List Char} (h : ['-', '-'] <:+: line) (b : List Char) :
    dropComment (line ++ b) = dropComment line := by
  rcases dropComment_cases line with ⟨hnone, -⟩ | ⟨rest, hfirst, hline⟩
  · exact absurd h hnone
  · have happend : line ++ b = dropComment line ++ (['-', '-'] ++ (rest ++ b)) := by
      rw [← List.append_assoc ['-', '-'], ← List.append_assoc, ← hline]
    rw [happend, dropComment_cut hfirst]

/-- A comment starts in the second of two texts when it does not start in the first. -/
theorem dropComment_append {a : List Char} (h : ¬ ['-', '-'] <:+: a) (hlast : a.getLast? ≠ some '-') (b : List Char) :
    dropComment (a ++ b) = a ++ dropComment b := by
  have hnone : ∀ b, ¬ ['-', '-'] <:+: b → ¬ ['-', '-'] <:+: a ++ b := by
    intro b hb hwithin
    rcases pair_of_append hwithin with hwithin | hwithin | ⟨hlast', -⟩
    · exact h hwithin
    · exact hb hwithin
    · exact hlast hlast'
  rcases dropComment_cases b with ⟨hb, heq⟩ | ⟨rest, hfirst, hb⟩
  · rw [heq, dropComment_of_no_comment (hnone b hb)]
  · have hfirst' := hnone _ hfirst
    rw [← List.append_assoc] at hfirst'
    conv_lhs => rw [hb, ← List.append_assoc]
    exact dropComment_cut hfirst' rest

theorem dropComment_comment {line : List Char} (hlast : line.getLast? ≠ some '-') (comment : List Char) :
    dropComment (line ++ (['-', '-'] ++ comment)) = dropComment line := by
  by_cases h : ['-', '-'] <:+: line
  · exact dropComment_append_of_comment h _
  · rw [dropComment_append h hlast, dropComment_of_no_comment h]
    exact List.append_nil line

/-- The first part of a text ends where one of its lines does. -/
def LineEnds (a b : List Char) : Prop :=
  b = [] ∨ ['\r', '\n'] <+: b ∨ ['\n'] <+: b ∧ a.getLast? ≠ some '\r'

theorem getLast?_ne_of_append {a rest : List Char} {d c : Char} (h : (a ++ d :: rest).getLast? ≠ some c) :
    rest.getLast? ≠ some c := by
  intro hlast
  refine h ?_
  rw [List.getLast?_append_cons, List.getLast?_cons, hlast]
  rfl

theorem LineEnds.tail {l rest b : List Char} {d : Char} (h : LineEnds (l ++ d :: rest) b) : LineEnds rest b :=
  h.imp_right (Or.imp_right fun ⟨hfeed, hlast⟩ => ⟨hfeed, getLast?_ne_of_append hlast⟩)

theorem dropComment_chomp_comment {line : List Char} (hlast : line.getLast? ≠ some '-') (comment : List Char) :
    dropComment (chomp (line ++ (['-', '-'] ++ comment))) = dropComment line := by
  by_cases hempty : comment = []
  · subst hempty
    rw [chomp_of_getLast? (by simp), dropComment_comment hlast]
  · rw [← List.append_assoc, chomp_append _ hempty, List.append_assoc, dropComment_comment hlast]

theorem stripComments_line_comment {line comment b : List Char} (hline : '\n' ∉ line) (hcomment : '\n' ∉ comment)
    (hlast : line.getLast? ≠ some '-') (h : LineEnds line b) :
    stripComments (line ++ (['-', '-'] ++ (comment ++ b))) = stripComments (line ++ b) := by
  have hlong : '\n' ∉ line ++ (['-', '-'] ++ comment) := by simp [hline, hcomment]
  have hassoc : line ++ (['-', '-'] ++ (comment ++ b)) = line ++ (['-', '-'] ++ comment) ++ b := by simp
  rw [hassoc]
  rcases h with rfl | ⟨rest, rfl⟩ | ⟨⟨rest, rfl⟩, hreturn⟩
  · rw [List.append_nil, List.append_nil, stripComments_line hlong, stripComments_line hline, dropComment_comment hlast]
  · have hchomp : dropComment (chomp (line ++ (['-', '-'] ++ comment) ++ ['\r'])) = dropComment (chomp (line ++ ['\r'])) := by
      rw [chomp_append _ (by simp), chomp_append _ (by simp), show chomp ['\r'] = [] from rfl, List.append_nil,
        List.append_nil, dropComment_comment hlast]
    have hboth := stripComments_feed_congr (by simp [hline, hcomment]) (by simp [hline]) hchomp rest
    simpa using hboth
  · refine stripComments_feed_congr hlong hline ?_ rest
    rw [dropComment_chomp_comment hlast, chomp_of_getLast? hreturn]

/-- A comment at the end of a line adds nothing but, on an empty line at the end of the text, a line feed. -/
theorem stripComments_comment {a comment b : List Char} (hcomment : '\n' ∉ comment) (hlast : a.getLast? ≠ some '-')
    (h : LineEnds a b) :
    ∃ feeds, (∀ c ∈ feeds, c = '\n') ∧
      stripComments (a ++ (['-', '-'] ++ (comment ++ b))) = stripComments (a ++ b) ++ feeds := by
  induction a using line_induction with
  | line l hl => exact ⟨[], by simp, by rw [stripComments_line_comment hl hcomment hlast h, List.append_nil]⟩
  | feed l rest hl ih =>
    obtain ⟨feeds, hfeeds, hstrip⟩ := ih (getLast?_ne_of_append hlast) h.tail
    rw [List.append_assoc, List.cons_append, stripComments_feed hl (by simp), hstrip, List.append_assoc, List.cons_append]
    by_cases hempty : rest ++ b = []
    · refine ⟨'\n' :: feeds, by simpa using hfeeds, ?_⟩
      rw [hempty, stripComments_last_feed hl]
      rfl
    · exact ⟨feeds, hfeeds, by rw [stripComments_feed hl hempty, List.append_assoc]; rfl⟩

/-! ## Behind an identifier -/

theorem isBoundary_head?_of_prefix {a b : List Char} (h : a <+: b) (hb : isBoundary b.head? = true) :
    isBoundary a.head? = true := by
  cases a with
  | nil => rfl
  | cons c a =>
    obtain ⟨b, rfl⟩ := h
    exact hb

theorem isBoundary_head?_append {a b : List Char} (ha : isBoundary a.head? = true) (hb : isBoundary b.head? = true) :
    isBoundary (a ++ b).head? = true := by
  cases a with
  | nil => exact hb
  | cons c a => exact ha

theorem exists_eq_dropComment_append (line : List Char) :
    ∃ rest, line = dropComment line ++ rest ∧ isBoundary rest.head? = true := by
  rcases dropComment_cases line with ⟨-, heq⟩ | ⟨rest, -, hline⟩
  · exact ⟨[], by rw [heq, List.append_nil], rfl⟩
  · exact ⟨_, hline, rfl⟩

theorem exists_eq_dropComment_chomp_append (line : List Char) :
    ∃ rest, line = dropComment (chomp line) ++ rest ∧ isBoundary rest.head? = true := by
  obtain ⟨tail, hline, htail⟩ := exists_eq_chomp_append line
  obtain ⟨rest, hchomp, hrest⟩ := exists_eq_dropComment_append (chomp line)
  refine ⟨rest ++ tail, by rw [← List.append_assoc, ← hchomp, ← hline], isBoundary_head?_append hrest ?_⟩
  cases tail with
  | nil => rfl
  | cons c tail =>
    cases htail c rfl
    rfl

theorem chomp_within (line : List Char) : chomp line <+: line := by
  obtain ⟨rest, hline, -⟩ := exists_eq_chomp_append line
  exact ⟨rest, hline.symm⟩

theorem dropComment_prefix (line : List Char) : dropComment line <+: line := by
  obtain ⟨rest, hline, -⟩ := exists_eq_dropComment_append line
  exact ⟨rest, hline.symm⟩

theorem dropComment_append_prefix {line : List Char} (hlast : line.getLast? ≠ some '-') (b : List Char) :
    ∃ b', b' <+: b ∧ dropComment (line ++ b) = dropComment line ++ b' := by
  by_cases h : ['-', '-'] <:+: line
  · exact ⟨[], List.nil_prefix, by rw [dropComment_append_of_comment h, List.append_nil]⟩
  · exact ⟨dropComment b, dropComment_prefix b, by rw [dropComment_append h hlast, dropComment_of_no_comment h]⟩

theorem stripComments_line_append {line b : List Char} (hline : '\n' ∉ line)
    (hlast : ∃ c ∈ line.getLast?, isIdentChar c = true) :
    ∃ b', stripComments (line ++ b) = stripComments line ++ b' ∧ (isBoundary b.head? = true → isBoundary b'.head? = true) := by
  obtain ⟨c, hc, hident⟩ := hlast
  have hne : ∀ d, isIdentChar d = false → line.getLast? ≠ some d := by
    rintro d hd hline
    rw [hline] at hc
    cases hc
    rw [hident] at hd
    cases hd
  have hreturn := hne '\r' rfl
  have hdash := hne '-' rfl
  rw [stripComments_line hline]
  by_cases hfeed : '\n' ∈ b
  · obtain ⟨first, rest, rfl, hfirst⟩ := List.eq_append_cons_of_mem hfeed
    have hlong : '\n' ∉ line ++ first := by simp [hline, hfirst]
    obtain ⟨b', hstarts, hb'⟩ : ∃ b', b' <+: first ∧ dropComment (chomp (line ++ first)) = dropComment line ++ b' := by
      by_cases hempty : first = []
      · exact ⟨[], List.nil_prefix, by rw [hempty, List.append_nil, chomp_of_getLast? hreturn, List.append_nil]⟩
      · obtain ⟨b', hstarts, hb'⟩ := dropComment_append_prefix hdash (chomp first)
        exact ⟨b', hstarts.trans (chomp_within first), by rw [chomp_append _ hempty, hb']⟩
    have hhead : isBoundary (first ++ '\n' :: rest).head? = true → isBoundary b'.head? = true := fun hb =>
      isBoundary_head?_of_prefix (hstarts.trans (List.prefix_append _ _)) hb
    rw [← List.append_assoc]
    by_cases hrest : rest = []
    · rw [hrest, stripComments_last_feed hlong, hb']
      exact ⟨b', rfl, by simpa [hrest] using hhead⟩
    · rw [stripComments_feed hlong hrest, hb', List.append_assoc]
      exact ⟨_, rfl, fun hb => isBoundary_head?_append (hhead hb) rfl⟩
  · obtain ⟨b', hstarts, hb'⟩ := dropComment_append_prefix hdash b
    refine ⟨b', ?_, isBoundary_head?_of_prefix hstarts⟩
    rw [stripComments_line (by simp [hline, hfeed]), hb']

/-- A text that goes on behind an identifier. -/
theorem stripComments_append {a b : List Char} (hlast : ∃ c ∈ a.getLast?, isIdentChar c = true) :
    ∃ b', stripComments (a ++ b) = stripComments a ++ b' ∧ (isBoundary b.head? = true → isBoundary b'.head? = true) := by
  induction a using line_induction with
  | line l hl => exact stripComments_line_append hl hlast
  | feed l rest hl ih =>
    obtain ⟨c, hc, hident⟩ := hlast
    have hrest : rest ≠ [] := by
      rintro rfl
      simp at hc
      subst hc
      cases hident
    have hlast : rest.getLast? = some c := by
      rwa [List.getLast?_append_cons, List.getLast?_cons_of_ne_nil hrest] at hc
    obtain ⟨b', hstrip, hboundary⟩ := ih ⟨c, hlast, hident⟩
    refine ⟨b', ?_, hboundary⟩
    rw [List.append_assoc, List.cons_append, stripComments_feed hl (by simp [hrest]), stripComments_feed hl hrest, hstrip,
      List.append_assoc, List.cons_append]

/-! ## Where a word of the text without comments stands -/

/-- The last line of a text, as far as it goes. -/
def lastLine (cs : List Char) : List Char := cs.rtakeWhile (· ≠ '\n')

theorem lastLine_of_line {line : List Char} (h : '\n' ∉ line) : lastLine line = line := by
  rw [lastLine, List.rtakeWhile_eq_self_iff]
  intro c hc
  have hne : c ≠ '\n' := by
    rintro rfl
    exact h hc
  simpa using hne

theorem lastLine_feed (line rest : List Char) : lastLine (line ++ '\n' :: rest) = lastLine rest := by
  unfold lastLine List.rtakeWhile
  rw [List.reverse_append, List.reverse_cons, List.append_assoc, List.takeWhile_append]
  split
  · rename_i h
    have hall : rest.reverse.takeWhile (fun c => decide (c ≠ '\n')) = rest.reverse :=
      (List.takeWhile_prefix _).eq_of_length h
    rw [hall]
    simp
  · rfl

/-- The source goes on behind `before ++ word`, which ends outside of comments, with no
identifier, and reads as `x ++ word`. -/
structure Reads (source before word x : List Char) : Prop where
  splits : ∃ c after, source = before ++ (word ++ c :: after) ∧ isIdentChar c = false
  strips : stripComments (before ++ word) = x ++ word
  outside : ¬ ['-', '-'] <:+: lastLine (before ++ word)

/-- A word within a line stands outside of the comment at its end. -/
theorem reads_of_line {x word y rest : List Char} (hline : '\n' ∉ x ++ (word ++ y))
    (hcomment : ¬ ['-', '-'] <:+: x ++ (word ++ y)) (hboundary : isBoundary (y ++ rest).head? = true) (hne : y ++ rest ≠ []) :
    Reads (x ++ (word ++ y) ++ rest) x word x := by
  have hstarts : x ++ word <+: x ++ (word ++ y) := by
    rw [← List.append_assoc]
    exact List.prefix_append _ _
  have hline' : '\n' ∉ x ++ word := fun hmem => hline (hstarts.subset hmem)
  have hcomment' : ¬ ['-', '-'] <:+: x ++ word := fun hwithin => hcomment (hwithin.trans hstarts.isInfix)
  obtain ⟨c, after, hafter⟩ := List.exists_cons_of_ne_nil hne
  refine ⟨⟨c, after, by rw [← hafter]; simp, ?_⟩, ?_, by rwa [lastLine_of_line hline']⟩
  · simpa [hafter, isBoundary_some] using hboundary
  · rw [stripComments_line hline', dropComment_of_no_comment hcomment']

theorem Reads.feed {line rest before word x : List Char} (hline : '\n' ∉ line) (hword : word ≠ [])
    (h : Reads rest before word x) :
    Reads (line ++ '\n' :: rest) (line ++ '\n' :: before) word (dropComment (chomp line) ++ '\n' :: x) := by
  obtain ⟨⟨c, after, rfl, hc⟩, hstrips, houtside⟩ := h
  refine ⟨⟨c, after, by simp, hc⟩, ?_, ?_⟩
  · rw [List.append_assoc, List.cons_append, stripComments_feed hline (by simp [hword]), hstrips]
    simp
  · rwa [List.append_assoc, List.cons_append, lastLine_feed]

/-- A word stands behind a line feed or before it. -/
theorem append_feed_cases {a b x word y : List Char} (hword : word ≠ []) (hline : '\n' ∉ word)
    (h : a ++ '\n' :: b = x ++ (word ++ y)) :
    (∃ x', x = a ++ '\n' :: x' ∧ b = x' ++ (word ++ y)) ∨ ∃ y', a = x ++ (word ++ y') ∧ y = y' ++ '\n' :: b := by
  have hnofeed : ∀ {c d}, word = c ++ '\n' :: d → False := fun hword => hline (by simp [hword])
  rcases List.append_eq_append_iff.1 h with ⟨x', rfl, hx⟩ | ⟨first, rfl, hx⟩
  · cases x' with
    | cons d x' =>
      obtain ⟨rfl, hb⟩ := List.cons.inj hx
      exact .inl ⟨x', rfl, hb⟩
    | nil =>
      cases word with
      | nil => contradiction
      | cons d word => exact (hnofeed (c := []) (congrArg (· :: word) (List.cons.inj hx).1.symm)).elim
  · rcases List.append_eq_append_iff.1 hx with ⟨y', rfl, rfl⟩ | ⟨tail, hword', htail⟩
    · exact .inr ⟨y', rfl, rfl⟩
    · cases tail with
      | nil => exact .inr ⟨[], by simpa using hword'.symm, by simpa using htail.symm⟩
      | cons d tail => exact (hnofeed (hword'.trans (by rw [← (List.cons.inj htail).1]))).elim

/-- A word of the text without comments is a word of the text. -/
theorem exists_reads {source x word y : List Char} (hword : word ≠ []) (hline : '\n' ∉ word) (hy : y ≠ [])
    (hboundary : isBoundary y.head? = true) (h : stripComments source = x ++ (word ++ y)) :
    ∃ before, Reads source before word x := by
  have hhead : ∀ rest : List Char, isBoundary (y ++ rest).head? = true := fun rest => by
    rwa [List.head?_append_of_ne_nil _ hy]
  induction source using line_induction generalizing x with
  | line l hl =>
    obtain ⟨rest, heq, -⟩ := exists_eq_dropComment_append l
    rw [stripComments_line hl] at h
    have hcomment := no_comment_dropComment l
    rw [h] at heq hcomment
    rw [heq] at hl ⊢
    exact ⟨x, reads_of_line (fun hmem => hl (List.mem_append_left _ hmem)) hcomment (hhead rest) (by simp [hy])⟩
  | feed l source hl ih =>
    obtain ⟨rest, heq, hrest⟩ := exists_eq_dropComment_chomp_append l
    have hcomment := no_comment_dropComment (chomp l)
    have hfirst : '\n' ∉ dropComment (chomp l) := fun hmem => hl (by rw [heq]; exact List.mem_append_left _ hmem)
    by_cases hsource : source = []
    · subst hsource
      rw [stripComments_last_feed hl] at h
      rw [h] at heq hcomment hfirst
      refine ⟨x, ?_⟩
      rw [heq, List.append_assoc]
      exact reads_of_line hfirst hcomment (hhead _) (by simp)
    · rw [stripComments_feed hl hsource] at h
      rcases append_feed_cases hword hline h with ⟨x', rfl, hrest'⟩ | ⟨y', hfirst', rfl⟩
      · obtain ⟨before, hreads⟩ := ih hrest'
        exact ⟨_, hreads.feed hl hword⟩
      · rw [hfirst'] at heq hcomment hfirst
        refine ⟨x, ?_⟩
        rw [heq, List.append_assoc]
        have hy' : isBoundary y'.head? = true := isBoundary_head?_of_prefix (List.prefix_append _ _) hboundary
        exact reads_of_line hfirst hcomment (isBoundary_head?_append hy' (isBoundary_head?_append hrest rfl)) (by simp)

end CoreForge.Entity
