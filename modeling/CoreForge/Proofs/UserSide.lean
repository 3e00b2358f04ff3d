import CoreForge.Proofs.BusMembers
import CoreForge.Proofs.Rereading
/-!
# The user side of an entity

Compiling the description of an entity gives back its name, its generics, its clocks and
resets, and the ports of its own, whatever becomes of its buses: `compile_userSide`. A width
that is named by a generic is worth the default of that generic. A type that has kept its
text is worth nothing: there is a parenthesis in it, and so it is the name of no generic.
-/

namespace CoreForge

open CoreForge.Text CoreForge.Number

/-! ## Names and other texts -/

/-- No name, in any case, is a text with a character that names do not have. -/
theorem sameIgnoringCase_eq_false {name text : String} (hname : isIdentifier name.toList = true) {c : Char}
    (hc : c ∈ text.toList) (hchar : isIdentChar c = false) : sameIgnoringCase name text = false := by
  rw [sameIgnoringCase, beq_eq_false_iff_ne]
  intro hsame
  have hlower : c.toLower ∈ (lower name).toList := by
    rw [hsame, lower, String.toList_ofList]
    exact List.mem_map_of_mem hc
  rw [lower, String.toList_ofList] at hlower
  obtain ⟨d, hd, hdc⟩ := List.mem_map.1 hlower
  have hident : isIdentChar c.toLower = true := by
    rw [← hdc, isIdentChar_toLower]
    exact Entity.all_isIdentChar hname d hd
  rw [isIdentChar_toLower, hchar] at hident
  cases hident

namespace Entity

/-! ## Widths -/

/-- The number of bits that the default of a generic spells. -/
def GenericDecl.bits? (g : GenericDecl) : Option UInt32 := do
  let n ← (ParameterValue.ofDeclaration (← g.default)).number?
  fit32? n.toNat

/-- The number of bits of a width. A name is worth the first generic of that name, in any case. -/
def bits? (e : Entity) : WidthExpr → Option UInt32
  | .scalar => some 1
  | .fixed bits => some bits
  | .generic name => (e.generics.find? fun g => sameIgnoringCase g.name name).bind GenericDecl.bits?
  | .unresolved _ => none

theorem GenericDecl.number?_parameter (g : GenericDecl) :
    (g.parameter.value.number?.bind fun n => fit32? n.toNat) = g.bits? := by
  unfold parameter bits?
  cases g.default with
  | none => rfl
  | some text => rfl

/-- A name is looked up among the generics. -/
theorem resolve?_symbolic (e : Entity) (name : String) :
    (PortWidth.symbolic name).resolve? (parameterValues e.toDescription.parameters) =
      (e.generics.find? fun g => sameIgnoringCase g.name name).bind GenericDecl.bits? := by
  simp only [PortWidth.resolve?, parameterValues, toDescription, List.map_map, List.find?_map, Function.comp_def,
    GenericDecl.parameter]
  cases hfind : e.generics.find? fun g => sameIgnoringCase g.name name with
  | none => rfl
  | some g => exact g.number?_parameter

theorem mem_of_unresolved {type : List Char} {text : String} (h : inferWidth type = .unresolved text) :
    '(' ∈ text.toList := by
  rcases inferWidth_cases type with ⟨bits, hfixed⟩ | ⟨name, -, hgeneric⟩ | ⟨hparen, hunresolved⟩
  · rw [h] at hfixed
    cases hfixed
  · rw [h] at hgeneric
    cases hgeneric
  · rw [h] at hunresolved
    cases hunresolved
    rwa [String.toList_ofList]

/-- The width of a port of the description is the one of the type. -/
theorem resolve?_toPortWidth {source : List Char} {detect : Bool} {e : Entity} (h : parse source detect = .ok e)
    {p : PortDecl} (hp : p ∈ e.userPorts) :
    p.width.toPortWidth.resolve? (parameterValues e.toDescription.parameters) = e.bits? p.width := by
  obtain ⟨body, hbody⟩ := mem_userPorts h hp
  obtain ⟨-, -, hwidth⟩ := PortDecl.mem_readAll hbody
  cases hw : p.width with
  | scalar => rfl
  | fixed bits => rfl
  | generic name => exact resolve?_symbolic e name
  | unresolved type =>
    -- The text stands where a name would, and must not be taken for one.
    have hnone : (e.generics.find? fun g => sameIgnoringCase g.name type) = none := by
      rw [List.find?_eq_none]
      intro g hg hsame
      have hparen := mem_of_unresolved (hwidth.symm.trans hw)
      rw [sameIgnoringCase_eq_false (isIdentifier_of_mem_generics h hg) hparen (by decide)] at hsame
      cases hsame
    rw [WidthExpr.toPortWidth, resolve?_symbolic, hnone]
    rfl

/-! ## Ports by role -/

namespace ClassifiedPort

/-- The port is a reset, of either polarity. -/
def isReset (p : ClassifiedPort) : Bool := p.role matches .reset _

/-- The port is one of the entity itself. -/
def isUser (p : ClassifiedPort) : Bool := p.role matches .user _

end ClassifiedPort

theorem filterMap_eq_map_filter {α β : Type} {f : α → Option β} {p : α → Bool} {g : α → β}
    (h : ∀ x, f x = if p x then some (g x) else none) (xs : List α) : xs.filterMap f = (xs.filter p).map g := by
  rw [← List.filterMap_eq_map, List.filterMap_filter]
  exact List.filterMap_congr fun x _ => h x

theorem userPorts_eq (e : Entity) : e.userPorts = (e.ports.filter ClassifiedPort.isUser).map (·.port) := by
  refine filterMap_eq_map_filter (fun p => ?_) e.ports
  unfold ClassifiedPort.isUser
  cases p.role <;> rfl

theorem map_resets {β : Type} {f : String × Polarity → β} {g : ClassifiedPort → β}
    (h : ∀ port polarity, f (port.name, polarity) = g ⟨port, .reset polarity⟩) (e : Entity) :
    e.resets.map f = (e.ports.filter ClassifiedPort.isReset).map g := by
  rw [resets, List.map_filterMap]
  refine filterMap_eq_map_filter (fun p => ?_) e.ports
  obtain ⟨port, role⟩ := p
  cases role with
  | reset polarity => exact congrArg some (h port polarity)
  | _ => rfl

/-- Of the resets, the first one is the first port that is a reset. -/
theorem map_head?_resets {β : Type} {f : String × Polarity → β} {g : ClassifiedPort → β}
    (h : ∀ port polarity, f (port.name, polarity) = g ⟨port, .reset polarity⟩) (e : Entity) :
    e.resets.head?.map f = (e.ports.find? ClassifiedPort.isReset).map g := by
  rw [← List.head?_map, map_resets h, List.head?_map, List.head?_filter]

/-! ## Contexts -/

/-- The context has what the entity has besides its buses. -/
structure UserSide (e : Entity) (c : Context) : Prop where
  name : c.entityName = e.name
  generics : c.description.parameters.map (fun q => (q.name, q.dataType, q.value)) =
    e.generics.map fun g => (g.name, g.type, g.default.elim (.text "") ParameterValue.ofDeclaration)
  ports : c.userPorts.map (fun q => (q.port.name, q.port.direction, q.resolvedWidth)) =
    (e.ports.filter ClassifiedPort.isUser).map fun p => (p.port.name, p.port.direction, e.bits? p.port.width)
  clocks : c.clocks = (e.ports.filter (·.role = .clock)).map (·.port.name)
  clockPort : c.clockPort = (e.ports.find? (·.role = .clock)).map (·.port.name)
  resets : c.resets = (e.ports.filter ClassifiedPort.isReset).map (·.port.name)
  resetPort : c.resetPort = (e.ports.find? ClassifiedPort.isReset).map (·.port.name)
  resetActiveHigh : c.resetActiveHigh = true ↔
    (e.ports.find? ClassifiedPort.isReset).map (·.role) = some (.reset .activeHigh)

theorem userSide_of_description {source : List Char} {detect : Bool} {e : Entity} (h : parse source detect = .ok e)
    {c : Context} (hc : c.description = e.toDescription) : UserSide e c where
  name := by rw [Context.entityName, hc]; rfl
  generics := by
    rw [hc, toDescription, List.map_map]
    rfl
  ports := by
    calc c.userPorts.map (fun q => (q.port.name, q.port.direction, q.resolvedWidth))
        = e.userPorts.map fun p => (p.name, p.direction, e.bits? p.width) := by
          rw [Context.userPorts, hc]
          simp only [toDescription, List.map_map]
          refine List.map_congr_left fun p hp => ?_
          exact congrArg (fun bits => (p.name, p.direction, bits)) (resolve?_toPortWidth h hp)
      _ = _ := by
          rw [userPorts_eq, List.map_map]
          rfl
  clocks := by simp [Context.clocks, hc, toDescription, Function.comp_def, Entity.clocks]
  clockPort := by
    simp [Context.clockPort, Context.clocks, hc, toDescription, Function.comp_def, Entity.clocks, List.head?_filter]
  resets := by
    rw [← map_resets (f := (·.1)) fun _ _ => rfl]
    simp [Context.resets, hc, toDescription, Function.comp_def]
  resetPort := by
    rw [← map_head?_resets (f := (·.1)) fun _ _ => rfl]
    simp [Context.resetPort, Context.resets, hc, toDescription, Function.comp_def]
  resetActiveHigh := by
    rw [← map_head?_resets (f := fun r => .reset r.2) fun _ _ => rfl, Context.resetActiveHigh, hc, toDescription]
    cases e.resets with
    | nil => simp
    | cons r rs => simp

/-- The description of an entity compiles, and the context has what the entity has. -/
theorem compile_userSide {source : List Char} {detect : Bool} {e : Entity} (h : parse source detect = .ok e)
    (files : Files) (directory : String) (options : CompileOptions) :
    ∃ c, (Context.compile (.new none) files e.toDescription directory options).1 = .ok c ∧ UserSide e c := by
  obtain ⟨c, hc, hdescription, -⟩ := busPorts_of_compile h files directory options
  exact ⟨c, hc, userSide_of_description h hdescription⟩

theorem compile_userSide_delay :
    let source : List Char := "entity delay is generic (Depth : natural := 0x10);
      port (clk, rst : in bit; d : in word(DEPTH-1 downto 0); q : out word(2*3 downto 0)); end;".toList
    ∃ e c, parse source false = .ok e ∧
      (Context.compile (.new none) .empty e.toDescription "." ⟨false, true⟩).1 = .ok c ∧
      c.entityName = "delay" ∧ c.clockPort = some "clk" ∧ c.resetPort = some "rst" ∧ c.resetActiveHigh = true ∧
      c.userPorts.map (fun q => (q.port.name, q.port.direction, q.resolvedWidth)) =
        [("d", .input, some 16), ("q", .output, none)] := by
  intro source
  let e : Entity :=
    { name := "delay"
      generics := [⟨"Depth", "natural", some "0x10"⟩]
      ports :=
        [ ⟨⟨"clk", .input, "bit", .scalar⟩, .clock⟩, ⟨⟨"rst", .input, "bit", .scalar⟩, .reset .activeHigh⟩,
          ⟨⟨"d", .input, "word(DEPTH-1 downto 0)", .generic "DEPTH"⟩, .user "D"⟩,
          ⟨⟨"q", .output, "word(2*3 downto 0)", .unresolved "word(2*3 downto 0)"⟩, .user "Q"⟩ ]
      buses := [] }
  have hparse : parse source false = .ok e := by decide +kernel
  obtain ⟨c, hc, hside⟩ := compile_userSide hparse .empty "." ⟨false, true⟩
  refine ⟨e, c, hparse, hc, hside.name, hside.clockPort, hside.resetPort, hside.resetActiveHigh.2 rfl, ?_⟩
  rw [hside.ports]
  decide +kernel

end Entity

end CoreForge
