import CoreForge.Core.Description
import CoreForge.Proofs.Records
import CoreForge.Proofs.Words
/-!
# Descriptions read back

Writing a description and reading it goes by two tables for every record: the entries that
are written, some of them only when there is something to say, and the fields that are
read, each with a default. What is written for a record is read as the same record
(`decode_encode`, for every kind of record). The one exception is a width that is a name:
a name that spells a number is read as that number, and white space around a name is lost.
`Description.decode_encode_iff` says which descriptions are read back as they were.
-/

namespace CoreForge

open CoreForge.Number CoreForge.Text Document

/-! ## Values -/

namespace Document

@[simp]
theorem number?_toNat (n : UInt64) : number? (.int n.toNat) = some n := by
  simp [number?, clamp64_toNat]

@[simp]
theorem number_toNat (n : UInt64) : number (.int n.toNat) = n := by
  rw [number, number?_toNat, Option.getD_some]

theorem number?_toNat32 (n : UInt32) : number? (.int n.toNat) = some (clamp64 n.toNat) := by
  simp [number?]

@[simp]
theorem number32_toNat (n : UInt32) : number32 (.int n.toNat) = n := by
  rw [number32, number, number?_toNat32, Option.getD_some, clamp32_clamp64]

@[simp]
theorem fit32?_toNat (n : UInt32) : ((number? (.int n.toNat)).bind fun n => fit32? n.toNat) = some n := by
  rw [number?_toNat32, Option.bind_some, toNat_clamp64_word32, fit32?, if_pos (toNat_le_max32 n), clamp32_toNat]

@[simp]
theorem elim_none_some {α : Type} (x : Option α) : (x.elim none fun a => some a) = x := by
  cases x <;> rfl

@[simp]
theorem elim_bitsText? (x : Option String) : (x.elim none fun s => bitsText? (.text s)) = x := by
  cases x <;> rfl

@[simp]
theorem elim_readText (x : Option String) : (x.elim (some none) fun s => readOpt readText (.text s)) = some x :=
  elim_readOpt x (fun _ _ => rfl) fun _ _ => by simp

end Document

theorem ParameterValue.decode_encode (v : ParameterValue) : decode v.encode = some v := by
  cases v with
  | int n =>
    have hle : n.toInt ≤ maxSigned64 := by
      have := n.toInt_lt
      simp only [maxSigned64]
      omega
    rw [encode, decode, if_pos hle, Int64.ofInt_toInt]
  | _ => rfl

namespace PortWidth

/-- The width that is read where this one was written. -/
def reread : PortWidth → PortWidth
  | .fixed w => .fixed w
  | .symbolic name => ofString name

/-- A name is trimmed and does not spell a number. -/
def Readable : PortWidth → Prop
  | .fixed _ => True
  | .symbolic name => trimText name = name ∧ ofString? name = none

instance (w : PortWidth) : Decidable w.Readable :=
  match w with
  | .fixed _ => .isTrue trivial
  | .symbolic _ => inferInstanceAs (Decidable (_ ∧ _))

theorem decode_encode (w : PortWidth) : decode w.encode = some w.reread := by
  cases w with
  | fixed w => simp only [encode, decode, isScalar, if_true, fit32?_toNat, Option.getD_some, reread]
  | symbolic name => rfl

theorem reread_eq_iff {w : PortWidth} : w.reread = w ↔ w.Readable := by
  cases w with
  | fixed w => simp [reread, Readable]
  | symbolic name => cases h : ofString? name <;> simp [reread, Readable, ofString, h]

end PortWidth

/-! ## Identity, parameters, ports -/

theorem Vlnv.decode_encode (v : Vlnv) : decode v.encode = some v := by
  rw [decode, encode, Record.ofDocument?_written (show layout.Unambiguous by decide) (.give _ (.give _ (.give _ (.give _ .nil))))]
  simp [Record.text]

theorem Parameter.decode_encode (p : Parameter) : decode p.encode = some p := by
  rw [decode, encode]
  simp only [List.cons_append, List.nil_append]
  rw [Record.ofDocument?_written (show layout.Unambiguous by decide) (.give _ (.give _ (.give _ (.lastIf _ _))))]
  simp [Record.text, ParameterValue.decode_encode]

theorem Direction.decode_encode (d : Direction) : decode d.encode = some d := by
  cases d <;> decide

theorem Polarity.decode_encode (p : Polarity) : decode p.encode = some p := by
  cases p <;> decide

namespace Port

/-- The port with its width as it is read. -/
def reread (p : Port) : Port := { p with width := p.width.reread }

theorem decode_encode (p : Port) : decode p.encode = some p.reread := by
  rw [decode, encode]
  simp only [List.cons_append, List.nil_append]
  rw [Record.ofDocument?_written (show layout.Unambiguous by decide) (.give _ (.give _ (.give _ (.lastIf _ _))))]
  simp [Record.text, Direction.decode_encode, PortWidth.decode_encode, reread]

theorem reread_eq_iff {p : Port} : p.reread = p ↔ p.width.Readable := by
  rw [← PortWidth.reread_eq_iff]
  cases p
  simp [reread]

theorem map_reread_eq_iff {ps : List Port} : ps.map reread = ps ↔ ∀ p ∈ ps, p.width.Readable := by
  induction ps with
  | nil => simp
  | cons p ps ih => simp [reread_eq_iff, ih]

end Port

theorem Clock.decode_encode (c : Clock) : decode c.encode = some c := by
  rw [decode, encode, Record.ofDocument?_written (show layout.Unambiguous by decide) (.give _ (.lastIf _ _))]
  simp [Record.text]

theorem Reset.decode_encode (r : Reset) : decode r.encode = some r := by
  rw [decode, encode]
  simp only [List.cons_append, List.nil_append]
  rw [Record.ofDocument?_written (show layout.Unambiguous by decide) (.give _ (.give _ (.lastIf _ _)))]
  simp [Record.text, Polarity.decode_encode]

/-! ## Bus interfaces -/

theorem BusMode.decode_encode (m : BusMode) : decode m.encode = some m := by
  cases m <;> decide

theorem ArraySpec.decode_encode (a : ArraySpec) : decode a.encode = some a := by
  rw [decode, encode]
  simp only [List.cons_append, List.nil_append]
  rw [Record.ofDocument?_written (show layout.Unambiguous by decide) (.give _ (.give _ (.giveOpt _ _ (.lastOpt _ _))))]
  simp [Record.optText]

namespace SortedMap
variable {β : Type}

theorem eq_of_entries {m m' : SortedMap β} (h : m.entries = m'.entries) : m = m' := by
  cases m
  cases m'
  cases h
  rfl

theorem insertEntry_append {k : String} {v : β} {es : List (String × β)} (h : ∀ e ∈ es, e.1 < k) :
    insertEntry k v es = es ++ [(k, v)] := by
  induction es with
  | nil => rfl
  | cons e es ih =>
    have hlt := h e (by simp)
    have hrest := ih fun e he => h e (by simp [he])
    simp only [insertEntry, hrest]
    rw [if_neg (String.lt_asymm hlt), if_neg (Ne.symm (String.ne_of_lt hlt))]
    rfl

/-- Entries that come in ascending order are each inserted at the end. -/
theorem foldl_insert (es : List (String × β)) (m : SortedMap β) (h : Ascending (m.entries ++ es)) :
    (es.foldl (fun m e => m.insert e.1 e.2) m).entries = m.entries ++ es := by
  induction es generalizing m with
  | nil => simp
  | cons e es ih =>
    have hlt : ∀ x ∈ m.entries, x.1 < e.1 := fun x hx => (List.pairwise_append.1 h).2.2 x hx e (by simp)
    have hentries : (m.insert e.1 e.2).entries = m.entries ++ [e] := insertEntry_append hlt
    rw [List.foldl_cons, ih, hentries, List.append_assoc, List.singleton_append]
    rw [hentries, List.append_assoc, List.singleton_append]
    exact h

theorem ofList_entries (m : SortedMap β) : ofList m.entries = m :=
  eq_of_entries (foldl_insert m.entries empty m.ascending)

end SortedMap

namespace BusDeclaration

theorem readPairs_widths (es : List (String × UInt32)) :
    readPairs readTableWidth (.object (es.map fun e => entry e.1 (.int e.2.toNat))) = some es := by
  rw [readPairs]
  induction es with
  | nil => rfl
  | cons e es ih =>
    simp only [List.map_cons, List.mapM_cons]
    rw [ih]
    simp [entry, readTableWidth, isScalar]

theorem decodeWidths_encodeWidths (m : SortedMap UInt32) : decodeWidths (encodeWidths m) = some m := by
  have h := readPairs_widths m.entries
  simp [decodeWidths, encodeWidths, readOpt, h, SortedMap.ofList_entries]

theorem ite_widths (m : SortedMap UInt32) :
    (if m.isEmpty = false then decodeWidths (encodeWidths m) else some .empty) = some m := by
  split
  · exact decodeWidths_encodeWidths m
  · rename_i h
    have hempty : m.entries = [] := List.isEmpty_iff.1 (Bool.of_not_eq_false h)
    rw [show m = .empty from SortedMap.eq_of_entries hempty]

theorem decode_encode (b : BusDeclaration) : decode b.encode = some b := by
  rw [decode, encode]
  simp only [List.append_assoc, List.cons_append, List.nil_append]
  rw [Record.ofDocument?_written (show layout.Unambiguous by decide)
    (.give _ (.give _ (.give _ (.giveOpt _ _ (.giveIf _ _ (.giveIf _ _ (.giveOpt _ _ (.giveOpt _ _ (.lastOpt _ _)))))))))]
  have hports : (if b.useOptionalPorts = [] then some [] else readList readText (.list (b.useOptionalPorts.map .text))) =
      some b.useOptionalPorts := ite_readList_map fun _ _ => rfl
  have harray : (b.array.elim (some none) fun a => readOpt ArraySpec.decode a.encode) = some b.array :=
    elim_readOpt b.array (fun a _ => ArraySpec.decode_encode a) fun _ _ => by simp [ArraySpec.encode]
  simp [Record.text, Record.optText, Record.list, BusMode.decode_encode, ite_widths, hports, harray]

end BusDeclaration

/-! ## Registers and memory maps -/

theorem FieldDecl.decode_encode (f : FieldDecl) : decode f.encode = some f := by
  rw [decode, encode]
  simp only [List.append_assoc, List.cons_append, List.nil_append]
  rw [Record.ofDocument?_written (show layout.Unambiguous by decide)
    (.give _ (.giveOpt _ _ (.giveOpt _ _ (.giveOpt _ _ (.giveOpt _ _ (.giveOpt _ _ (.lastIf _ _)))))))]
  simp [Record.text, Record.optText]

theorem Document.depth_le_depthEntries {e : Key × Document} {es : List (Key × Document)} (h : e ∈ es) :
    e.2.depth ≤ depthEntries es := by
  induction es with
  | nil => cases h
  | cons e' es ih =>
    obtain ⟨k, d⟩ := e'
    rw [depthEntries]
    rcases List.mem_cons.1 h with rfl | h
    · exact Nat.le_max_left _ _
    · exact Nat.le_trans (ih h) (Nat.le_max_right _ _)

namespace RegisterDecl

theorem encodeAll_eq (rs : List RegisterDecl) : encodeAll rs = rs.map encode := by
  induction rs with
  | nil => rfl
  | cons r rs ih => rw [encodeAll, ih, List.map_cons]

theorem depthList_registers_le {r : RegisterDecl} {levels : Nat} (h : r.encode.depth ≤ levels + 1)
    (hne : r.registers ≠ []) : depthList (encodeAll r.registers) ≤ levels := by
  cases r with
  | mk name offset access description fields count stride registers =>
    rw [encode, depth] at h
    have hlist : depth (.list (encodeAll registers)) ≤ levels := by
      refine Nat.le_trans (depth_le_depthEntries (e := entry "registers" (.list (encodeAll registers))) ?_)
        (Nat.le_of_succ_le_succ h)
      have hpresent : registers.isEmpty = false := List.isEmpty_eq_false_iff.2 hne
      simp [entryIf, hpresent]
    rw [depth] at hlist
    exact Nat.le_of_succ_le hlist

mutual

/-- A declaration is read back wherever at least its own nesting is allowed. -/
theorem decodeWithin_encode : ∀ (r : RegisterDecl) (levels : Nat), r.encode.depth ≤ levels →
    decodeWithin levels r.encode = some r
  | ⟨_, _, _, _, _, _, _, _⟩, 0, h => by
    rw [encode, depth] at h
    omega
  | ⟨name, offset, access, description, fields, count, stride, registers⟩, levels + 1, h => by
    have hfields : (if fields = [] then some [] else readList FieldDecl.decode (.list (fields.map FieldDecl.encode))) =
        some fields := ite_readList_map fun f _ => FieldDecl.decode_encode f
    have hregisters : (if registers = [] then some [] else readList (decodeWithin levels) (.list (encodeAll registers))) =
        some registers := by
      split
      · simp [*]
      · exact mapM_decodeWithin_encodeAll registers levels (depthList_registers_le h ‹_›)
    rw [decodeWithin, encode]
    simp only [List.append_assoc, List.cons_append, List.nil_append]
    rw [Record.ofDocument?_written (show layout.Unambiguous by decide)
      (.give _ (.give _ (.giveOpt _ _ (.giveIf _ _ (.giveIf _ _ (.giveOpt _ _ (.giveOpt _ _ (.lastIf _ _))))))))]
    simp [Record.text, Record.optText, Record.list, hfields, hregisters]

theorem mapM_decodeWithin_encodeAll : ∀ (rs : List RegisterDecl) (levels : Nat), depthList (encodeAll rs) ≤ levels →
    (encodeAll rs).mapM (decodeWithin levels) = some rs
  | [], _, _ => rfl
  | r :: rs, levels, h => by
    rw [encodeAll, depthList] at h
    rw [encodeAll, List.mapM_cons, decodeWithin_encode r levels (by omega), mapM_decodeWithin_encodeAll rs levels (by omega)]
    rfl

end

theorem decode_encode (r : RegisterDecl) : decode r.encode = some r := decodeWithin_encode r _ (Nat.le_refl _)

end RegisterDecl

theorem AddressBlock.decode_encode (b : AddressBlock) : decode b.encode = some b := by
  have hregisters : readList RegisterDecl.decode (.list (RegisterDecl.encodeAll b.registers)) = some b.registers := by
    rw [RegisterDecl.encodeAll_eq, readList_self b.registers fun r _ => RegisterDecl.decode_encode r]
  rw [decode, encode]
  simp only [List.append_assoc, List.cons_append, List.nil_append]
  rw [Record.ofDocument?_written (show layout.Unambiguous by decide)
    (.give _ (.giveIf _ _ (.give _ (.giveOpt _ _ (.give _ (.give _ (.give _ .nil)))))))]
  simp [Record.text, Record.list, hregisters]

theorem MemoryMap.decode_encode (m : MemoryMap) : decode m.encode = some m := by
  have hblocks := readList_self m.addressBlocks fun b _ => AddressBlock.decode_encode b
  rw [decode, encode]
  simp only [List.cons_append, List.nil_append]
  rw [Record.ofDocument?_written (show layout.Unambiguous by decide) (.give _ (.giveIf _ _ (.give _ .nil)))]
  simp [Record.text, Record.list, hblocks]

/-- An import is tried first, and a list of maps is no import. -/
theorem MemoryMapSource.decode_encode (m : MemoryMapSource) : decode m.encode = some m := by
  cases m with
  | imported path =>
    rw [decode, encode, decodeImport, Record.ofDocument?_written (show importLayout.Unambiguous by decide) (.give _ .nil)]
    simp [Record.get?_entry]
  | inline maps =>
    have himport : decodeImport (.list (maps.map MemoryMap.encode)) = none := rfl
    have hmaps := readList_self maps fun m _ => MemoryMap.decode_encode m
    rw [decode, encode, himport, hmaps]
    rfl

/-! ## Descriptions -/

namespace Description

/-- The description with all port widths as they are read. -/
def reread (c : Description) : Description := { c with ports := c.ports.map Port.reread }

/-- What is written for a description is read, and only widths may have changed. -/
theorem decode_encode (c : Description) : decode c.encode = some c.reread := by
  have hparameters := readList_self c.parameters fun p _ => Parameter.decode_encode p
  have hports := readList_map c.ports fun p _ => Port.decode_encode p
  have hclocks := readList_self c.clocks fun k _ => Clock.decode_encode k
  have hresets := readList_self c.resets fun r _ => Reset.decode_encode r
  have hbuses := readList_self c.busInterfaces fun b _ => BusDeclaration.decode_encode b
  have hmaps : (c.memoryMaps.elim (some none) fun m => readOpt MemoryMapSource.decode m.encode) = some c.memoryMaps :=
    elim_readOpt c.memoryMaps (fun m _ => MemoryMapSource.decode_encode m) fun m _ => by
      cases m <;> simp [MemoryMapSource.encode]
  rw [decode, encode]
  simp only [List.append_assoc, List.cons_append, List.nil_append]
  rw [Record.ofDocument?_written (show layout.Unambiguous by decide)
    (.give _ (.giveIf _ _ (.giveOpt _ _ (.give _ (.give _ (.give _ (.give _ (.give _ (.lastOpt _ _)))))))))]
  simp [Record.text, Record.optText, Record.list, Vlnv.decode_encode, hparameters, hports, hclocks, hresets, hbuses, hmaps,
    reread]

theorem reread_eq_iff {c : Description} : c.reread = c ↔ ∀ p ∈ c.ports, p.width.Readable := by
  rw [← Port.map_reread_eq_iff]
  cases c
  simp [reread]

theorem decode_encode_iff (c : Description) : decode c.encode = some c ↔ ∀ p ∈ c.ports, p.width.Readable := by
  rw [decode_encode, Option.some.injEq, reread_eq_iff]

/-- A description whose symbolic widths are trimmed and spell no numbers is read back as it was. -/
theorem decode_encode_readable (c : Description) (h : ∀ p ∈ c.ports, p.width.Readable) : decode c.encode = some c :=
  c.decode_encode_iff.2 h

/-- A width named `DEPTH`, an array of interfaces, and an array of registers in a group. -/
theorem decode_encode_readable_timer :
    let slots : RegisterDecl :=
      { RegisterDecl.ofOffset "slots" 16 with
        count := some 4, stride := some 8, registers := [.ofOffset "low" 0, .ofOffset "high" 4] }
    let block : AddressBlock :=
      { AddressBlock.ofAddress "block" 0x100 with
        registers := [.ofOffset "control" 0, { RegisterDecl.ofOffset "timers" 32 with registers := [slots] }] }
    let bus : BusDeclaration :=
      { (default : BusDeclaration) with
        name := "s_axi", protocolType := "AXI4-Lite", useOptionalPorts := ["AWPROT"]
        portWidthOverrides := .ofList [("WDATA", 64), ("AWADDR", 12)]
        array := some ⟨2, 0, some "s_axi{index}", none⟩ }
    let timer : Description :=
      { (default : Description) with
        vlnv := ⟨"user", "library", "timer", "1.0"⟩
        parameters := [⟨"DEPTH", "integer", .int 16, ""⟩, ⟨"RATE", "real", .float 0.5, "per second"⟩]
        ports := [⟨"level", .output, .symbolic "DEPTH", ""⟩, ⟨"tick", .input, .fixed 1, "enable"⟩]
        busInterfaces := [bus]
        memoryMaps := some (.inline [⟨"map", "", [block]⟩]) }
    (∀ p ∈ timer.ports, p.width.Readable) ∧ decode timer.encode = some timer := by
  intro slots block bus timer
  have hwidths : ∀ p ∈ timer.ports, p.width.Readable := by
    change ∀ p ∈ ([⟨"level", .output, .symbolic "DEPTH", ""⟩, ⟨"tick", .input, .fixed 1, "enable"⟩] : List Port),
      p.width.Readable
    decide
  exact ⟨hwidths, timer.decode_encode_readable hwidths⟩

end Description

end CoreForge
