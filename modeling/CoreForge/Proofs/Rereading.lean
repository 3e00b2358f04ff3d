import CoreForge.Entity.Description
import CoreForge.Proofs.Entities
import CoreForge.Proofs.RoundTrip
import CoreForge.Proofs.Searching
/-!
# Descriptions of entities read back

The description of an entity is always read again. It is read as it was unless a port has a
width named by a generic whose name spells a number: underscores are no part of a number,
so the name `_8` spells 8. A type that has kept its text has a parenthesis in it and spells
none, and neither does a name that starts with a letter.
-/

namespace CoreForge

open CoreForge.Text CoreForge.Number Document

/-! ## Texts that spell no number -/

namespace Number

/-- No spelling of a number takes the character. -/
def Foreign (c : Char) : Prop :=
  c.isDigit = false ∧ ∀ s ∈ spellings, s.isDigit c = false ∧ c.toLower ∉ s.marker

/-- What is foreign to numbers is still there behind a number. -/
theorem Foreign.mem_read? {c : Char} (hforeign : Foreign c) {s : Spelling} (hs : s ∈ spellings) {cs rest : List Char}
    {n : UInt64} (h : s.read? cs = some (n, rest)) (hc : c ∈ cs) : c ∈ rest := by
  obtain ⟨hdigit, hmarker⟩ := hforeign.2 s hs
  have hsize : c ∈ if s.sized then cs.dropWhile Char.isDigit else cs := by
    split
    · exact mem_dropWhile hforeign.1 hc
    · exact hc
  simp only [Spelling.read?, Option.bind_eq_bind, Option.bind_eq_some_iff, Option.some.injEq, Prod.mk.injEq] at h
  obtain ⟨digits, hdigits, _, _, _, rfl⟩ := h
  exact mem_dropWhile hdigit (mem_afterWord? hmarker hdigits hsize)

theorem Foreign.ofText?_eq_none {c : Char} (hforeign : Foreign c) (hgap : isGap c = false) (hunderscore : c ≠ '_')
    {cs : List Char} (hc : c ∈ cs) : ofText? cs = none := by
  have hfilter : c ∈ dropGaps (cs.filter (· ≠ '_')) := mem_dropWhile hgap (by simp [hc, hunderscore])
  unfold ofText? spacedLiteral?
  cases hliteral : literal? (dropGaps (cs.filter (· ≠ '_'))) with
  | none => rfl
  | some r =>
    obtain ⟨s, hs, hread⟩ := List.exists_of_findSome?_eq_some hliteral
    have hrest : c ∈ dropGaps r.2 := mem_dropWhile hgap (hforeign.mem_read? hs hread hfilter)
    cases hempty : dropGaps r.2 with
    | nil => simp [hempty] at hrest
    | cons d ds => simp [hempty]

/-- A name that starts with a letter spells no number. -/
theorem ofText?_letter {c : Char} (hc : c.isAlpha = true) (cs : List Char) : ofText? (c :: cs) = none := by
  have hdigit : c.isDigit = false := by
    rw [isAlpha_iff] at hc
    rw [← Bool.not_eq_true, isDigit_iff]
    omega
  have hgap : isGap c = false :=
    isGap_eq_false_of_isIdentChar (isIdentChar_iff.2 (.inl hc))
  have hunderscore : c ≠ '_' := by
    rintro rfl
    cases hc
  have hlower : c.toLower.isAlpha = true := by rwa [Char.isAlpha_toLower_eq_isAlpha]
  have hzero : c.toLower ≠ '0' := by
    intro h
    rw [h] at hlower
    cases hlower
  have hquote : c.toLower ≠ '\x27' := by
    intro h
    rw [h] at hlower
    cases hlower
  have hnone : ∀ rest, literal? (c :: rest) = none := by
    intro rest
    simp [literal?, spellings, Spelling.read?, afterWord?, hdigit, hzero, hquote, digitsWord?, digits?]
  simp [ofText?, spacedLiteral?, dropGaps, hunderscore, hgap, hnone]

end Number

/-! ## Widths -/

namespace Entity

theorem isIdentifier_of_genericMinusOne? {cs name : List Char} (h : genericMinusOne? cs = some name) :
    isIdentifier name = true := by
  simp only [genericMinusOne?, Option.bind_eq_bind, Option.bind_eq_some_iff] at h
  obtain ⟨⟨name', rest⟩, hname, _, _, _, _, hlast⟩ := h
  simp only [Option.ite_none_right_eq_some, Option.some.injEq] at hlast
  rw [← hlast.2]
  exact isIdentifier_of_identifier? hname

theorem rangeWidth?_cases {range : List Char} {w : WidthExpr} (h : rangeWidth? range = some w) :
    (∃ bits, w = .fixed bits) ∨ ∃ name, isIdentifier name = true ∧ w = .generic (String.ofList name) := by
  simp only [rangeWidth?, Option.bind_eq_bind, Option.bind_eq_some_iff] at h
  obtain ⟨⟨left, right, down⟩, -, h⟩ := h
  split at h
  · obtain ⟨bits, -, rfl⟩ := Option.map_eq_some_iff.1 h
    exact .inl ⟨bits, rfl⟩
  · simp only [Option.ite_none_right_eq_some, Option.map_eq_some_iff] at h
    obtain ⟨-, name, hname, rfl⟩ := h
    exact .inr ⟨name, isIdentifier_of_genericMinusOne? hname, rfl⟩

theorem inferWidth_cases (type : List Char) :
    (∃ bits, (inferWidth type).toPortWidth = .fixed bits) ∨
    (∃ name, isIdentifier name = true ∧ inferWidth type = .generic (String.ofList name)) ∨
    ('(' ∈ type ∧ inferWidth type = .unresolved (String.ofList type)) := by
  by_cases hparen : type.contains '(' = true
  · have hmem : '(' ∈ type := by simpa using hparen
    rw [inferWidth, if_pos hparen]
    split
    · rename_i range rest _
      split
      · cases hrange : rangeWidth? range with
        | none => exact .inr (.inr ⟨hmem, rfl⟩)
        | some w =>
          rcases rangeWidth?_cases hrange with ⟨bits, rfl⟩ | ⟨name, hname, rfl⟩
          · exact .inl ⟨bits, rfl⟩
          · exact .inr (.inl ⟨name, hname, rfl⟩)
      · exact .inr (.inr ⟨hmem, rfl⟩)
    · exact .inr (.inr ⟨hmem, rfl⟩)
  · rw [inferWidth, if_neg hparen]
    exact .inl ⟨1, rfl⟩

/-- A width that is read off a type is read back unless it is named by a generic whose
name spells a number. -/
theorem readable_inferWidth_iff {type : List Char} (htype : trim type = type) :
    (inferWidth type).toPortWidth.Readable ↔ ∀ name, inferWidth type = .generic name → ofString? name = none := by
  rcases inferWidth_cases type with ⟨bits, hbits⟩ | ⟨name, hname, hwidth⟩ | ⟨hparen, hwidth⟩
  · rw [hbits]
    refine ⟨fun _ name hname => ?_, fun _ => trivial⟩
    rw [hname] at hbits
    cases hbits
  · have htrim : trimText (String.ofList name) = String.ofList name := by
      rw [trimText, String.toList_ofList, trim_of_isIdentifier hname]
    rw [hwidth]
    refine ⟨fun h name' hname' => ?_, fun h => ⟨htrim, h _ rfl⟩⟩
    cases hname'
    exact h.2
  · have htrim : trimText (String.ofList type) = String.ofList type := by
      rw [trimText, String.toList_ofList, htype]
    have hnumber : ofString? (String.ofList type) = none := by
      rw [ofString?, String.toList_ofList]
      exact Foreign.ofText?_eq_none (c := '(') (by unfold Foreign; decide) (by decide) (by decide) hparen
    rw [hwidth]
    refine ⟨fun _ name hname => ?_, fun _ => ⟨htrim, hnumber⟩⟩
    cases hname

/-! ## Descriptions -/

theorem reread_toDescription_iff {source : List Char} {detect : Bool} {e : Entity} (h : parse source detect = .ok e) :
    e.toDescription.reread = e.toDescription ↔
      ∀ p ∈ e.userPorts, ∀ name, p.width = .generic name → ofString? name = none := by
  rw [Description.reread_eq_iff]
  simp only [toDescription, List.forall_mem_map]
  refine forall₂_congr fun p hp => ?_
  obtain ⟨body, hbody⟩ := mem_userPorts h hp
  obtain ⟨-, htype, hwidth⟩ := PortDecl.mem_readAll hbody
  rw [PortDecl.corePort, hwidth]
  exact readable_inferWidth_iff htype

/-- The description of an entity is read, and as it was exactly when no width is named by a
generic whose name spells a number. -/
theorem decode_toDescription {source : List Char} {detect : Bool} {e : Entity} (h : parse source detect = .ok e) :
    ∃ c, Description.decode e.toDescription.encode = some c ∧
      (c = e.toDescription ↔ ∀ p ∈ e.userPorts, ∀ name, p.width = .generic name → ofString? name = none) :=
  ⟨_, e.toDescription.decode_encode, reread_toDescription_iff h⟩

theorem decode_toDescription_fifo :
    let source : List Char := "entity fifo is generic (DEPTH : integer := 4);
      port (level : out std_logic_vector(DEPTH - 1 downto 0)); end fifo;".toList
    let fifo : Entity :=
      { name := "fifo"
        generics := [⟨"DEPTH", "integer", some "4"⟩]
        ports := [⟨⟨"level", .output, "std_logic_vector(DEPTH - 1 downto 0)", .generic "DEPTH"⟩, .user "LEVEL"⟩]
        buses := [] }
    parse source false = .ok fifo ∧ Description.decode fifo.toDescription.encode = some fifo.toDescription := by
  intro source fifo
  have hparse : parse source false = .ok fifo := by decide +kernel
  obtain ⟨c, hc, hsame⟩ := decode_toDescription hparse
  have hwidths : ∀ p ∈ fifo.userPorts, ∀ name, p.width = .generic name → ofString? name = none := by
    intro p hp name hname
    simp only [userPorts, fifo, List.filterMap_cons, List.filterMap_nil, List.mem_singleton] at hp
    subst hp
    cases hname
    decide
  exact ⟨hparse, by rw [hc, hsame.2 hwidths]⟩

/-- The width `_8` is read as 8. -/
theorem decode_toDescription_underscore :
    let source : List Char := "entity e is generic (_8 : integer := 4);
      port (a : in std_logic_vector(_8 - 1 downto 0)); end e;".toList
    ∃ e, parse source false = .ok e ∧ Description.decode e.toDescription.encode ≠ some e.toDescription := by
  intro source
  let e : Entity :=
    { name := "e"
      generics := [⟨"_8", "integer", some "4"⟩]
      ports := [⟨⟨"a", .input, "std_logic_vector(_8 - 1 downto 0)", .generic "_8"⟩, .user "A"⟩]
      buses := [] }
  refine ⟨e, by decide +kernel, ?_⟩
  rw [Ne, Description.decode_encode_iff]
  intro h
  have hwidth : PortWidth.Readable (.symbolic "_8") := h _ (List.mem_singleton_self _)
  revert hwidth
  decide

/-- Names of widths that start with letters are read back. -/
theorem decode_toDescription_of_letters {source : List Char} {detect : Bool} {e : Entity}
    (h : parse source detect = .ok e)
    (hletters : ∀ p ∈ e.userPorts, ∀ name, p.width = .generic name →
      ∃ c cs, name.toList = c :: cs ∧ c.isAlpha = true) :
    Description.decode e.toDescription.encode = some e.toDescription := by
  rw [Description.decode_encode, Option.some.injEq, reread_toDescription_iff h]
  intro p hp name hname
  obtain ⟨c, cs, hcs, hc⟩ := hletters p hp name hname
  rw [ofString?, hcs, ofText?_letter hc]

end Entity

end CoreForge
