import VliwCompiler.Asm.Accepted
import VliwCompiler.Asm.RoundTrip

/-!
# Reading back accepted processors

The stanza of a processor that was read is read again.  A name that ends with the
start of the separator moves the cut, and sizes are written in hexadecimal
notation but read as signed numbers; everything else comes back.
-/

namespace VliwCompiler.Asm

open Text (trim parseUnsigned isWhitespace Solid)

/-- The name ends where a separator starts. -/
def EndsOpen (name : String) : Prop := " =".toList <:+ name.toList

/-- The processor comes back from its own stanza. -/
structure Processor.Restored (processor : Processor) : Prop where
  units : ∀ unit ∈ processor.units, ¬EndsOpen unit.name
  aliases : ∀ entry ∈ processor.slotAliases, ¬EndsOpen entry.name
  memorySize : processor.memorySize < 2 ^ 63

/-! ### The first separator -/

theorem dropInfix?_separator {name : List Char} (uncut : ¬" = ".toList <:+: name)
    (closed : ¬" =".toList <:+ name) (rest : List Char) :
    (name ++ (" = ".toList ++ rest)).dropInfix? " = ".toList = some (name, rest) := by
  refine Text.dropInfix?_of_first rest fun front back same => ?_
  rcases List.append_eq_append_iff.mp same with ⟨more, rfl, -⟩ | ⟨more, rfl, isSep⟩
  · simp
  · rcases more with _ | ⟨first, _ | ⟨second, _ | ⟨third, more⟩⟩⟩
    · simp
    · simp at isSep
    · obtain ⟨rfl, rfl, -⟩ : ' ' = first ∧ '=' = second ∧ _ := by simpa using isSep
      exact absurd ⟨front, rfl⟩ closed
    · obtain ⟨rfl, rfl, rfl, -⟩ : ' ' = first ∧ '=' = second ∧ ' ' = third ∧ _ := by
        simpa using isSep
      exact absurd ⟨front, more, by simp⟩ uncut

/-- A name that ends where a separator starts is cut there. -/
theorem dropInfix?_open {front : List Char} (uncut : ¬" = ".toList <:+: front ++ " =".toList)
    (rest : List Char) :
    (front ++ " =".toList ++ (" = ".toList ++ rest)).dropInfix? " = ".toList =
      some (front, "= ".toList ++ rest) := by
  have isText : front ++ " =".toList ++ (" = ".toList ++ rest) =
      front ++ (" = ".toList ++ ("= ".toList ++ rest)) := by simp
  rw [isText]
  refine dropInfix?_separator (fun cut => uncut ?_) (fun isOpen => uncut ?_) _
  · exact cut.trans (List.prefix_append _ _).isInfix
  · obtain ⟨before, rfl⟩ := isOpen
    exact ⟨before, "=".toList, by simp⟩

/-! ### Lines -/

/-- What the line of a unit is read as. -/
theorem exists_parseUnit {unit : UnitDecl} (accepted : unit.Accepted) :
    ∃ other, (other = unit ↔ ¬EndsOpen unit.name) ∧ ∀ pos,
      trim (unitLine unit) ≠ [] ∧ trim (unitLine unit) ≠ "\x7d".toList ∧
        Parser.parseUnit pos (trim (unitLine unit)) = .ok other := by
  have isKind := accepted.kind.solid
  by_cases isOpen : EndsOpen unit.name
  · obtain ⟨front, isName⟩ := isOpen
    have uncut := accepted.name.uncut
    rw [← isName] at uncut
    have isCut := dropInfix?_open uncut unit.kind.toList
    rw [isName] at isCut
    refine ⟨_, iff_of_false (fun same => ?_) (not_not_intro ⟨front, isName⟩),
      parseUnit_unitLine isKind accepted.kindFull isCut⟩
    have isEqual : Solid "=".toList := .of_forall (by decide)
    have solid : Solid ("= ".toList ++ unit.kind.toList) :=
      isEqual.append " ".toList isKind (by decide) accepted.kindFull
    have sameKind := congrArg UnitDecl.kind same
    dsimp only at sameKind
    rw [Text.trim_of_solid solid, ← String.toList_inj, String.toList_ofList] at sameKind
    have sameLength := congrArg List.length sameKind
    rw [List.length_append] at sameLength
    have isMark : "= ".toList.length = 2 := by decide
    omega
  · have isCut := dropInfix?_separator accepted.name.uncut isOpen unit.kind.toList
    refine ⟨unit, iff_of_true rfl isOpen, fun pos => ?_⟩
    have read := parseUnit_unitLine isKind accepted.kindFull isCut pos
    rw [Text.trim_of_solid accepted.name.solid, Text.trim_of_solid isKind, String.ofList_toList,
      String.ofList_toList] at read
    exact read

/-- What the line of an alias is read as. -/
theorem parseLayoutLine_accepted {entry : SlotAlias} (accepted : entry.Accepted) (pos : Nat) :
    trim (aliasLine entry) ≠ [] ∧ trim (aliasLine entry) ≠ "\x7d".toList ∧
      (¬EndsOpen entry.name →
        Parser.parseLayoutLine pos (trim (aliasLine entry)) = .ok (.inl entry)) ∧
      (EndsOpen entry.name → ∀ value,
        Parser.parseLayoutLine pos (trim (aliasLine entry)) ≠ .ok value) := by
  by_cases isOpen : EndsOpen entry.name
  · obtain ⟨front, isName⟩ := isOpen
    have uncut := accepted.name.uncut
    rw [← isName] at uncut
    have isCut := dropInfix?_open uncut (Nat.toDigits 10 entry.slot)
    rw [isName] at isCut
    obtain ⟨full, notEnd, read⟩ := parseLayoutLine_aliasLine isCut pos
    refine ⟨full, notEnd, fun closed => absurd ⟨front, isName⟩ closed, fun _ value isOk => ?_⟩
    have isEqual : Solid "=".toList := .of_forall (by decide)
    have solid : Solid ("= ".toList ++ Nat.toDigits 10 entry.slot) :=
      isEqual.append " ".toList (solid_digits entry.slot) (by decide) Nat.toDigits_ne_nil
    have unread : parseUnsigned 10 (2 ^ 64) ("= ".toList ++ Nat.toDigits 10 entry.slot) = none :=
      rfl
    rw [read, Text.trim_of_solid solid, unread] at isOk
    cases isOk
  · have isCut := dropInfix?_separator accepted.name.uncut isOpen (Nat.toDigits 10 entry.slot)
    obtain ⟨full, notEnd, -⟩ := parseLayoutLine_aliasLine isCut pos
    exact ⟨full, notEnd, fun _ => parseLayoutLine_alias accepted.name.solid accepted.slot isCut pos,
      fun ends => absurd ends isOpen⟩

/-! ### The machine on the lines of a stanza -/

namespace Parser

theorem readLines_append (first second : List (List Char)) (pos : Nat) (place : Place) :
    readLines pos place (first ++ second) =
      readLines pos place first >>= fun next => readLines (pos + first.length) next second := by
  induction first generalizing pos place with
  | nil => rfl
  | cons line first ih =>
      rw [List.cons_append, readLines, readLines, bind_assoc]
      refine bind_congr fun next => ?_
      rw [ih, List.length_cons, Nat.add_assoc, Nat.add_comm 1]

theorem readLines_cons_of_ok {pos : Nat} {line : List Char} {place next : Place}
    (read : readLine pos line place = .ok next) (rest : List (List Char)) :
    readLines pos place (line :: rest) = readLines (pos + 1) next rest := by
  rw [readLines, read]
  rfl

theorem readLine_stanza {line trimmed : List Char} (isTrimmed : trim line = trimmed)
    (full : trimmed ≠ []) (notEnd : trimmed ≠ "\x7d".toList)
    (noHardware : trimmed ≠ "hardware \x7b".toList)
    (noLayout : trimmed ≠ "layout slots \x7b".toList) (processor : Processor) (pos : Nat) :
    readLine pos line (.stanzas processor) =
      (parseStanza processor trimmed ⟨[], pos + 1⟩).map (.stanzas ·.1) := by
  rw [readLine, isTrimmed, if_neg full, if_neg notEnd, readStanza, if_neg noHardware,
    if_neg noLayout]

/-- The units that are read. -/
theorem readLines_unitLines {units : List UnitDecl} (accepted : ∀ unit ∈ units, unit.Accepted) :
    ∃ others, (others = units ↔ ∀ unit ∈ units, ¬EndsOpen unit.name) ∧
      ∀ pos processor done, readLines pos (.hardware processor done) (units.map unitLine) =
        .ok (.hardware processor (done ++ others)) := by
  induction units with
  | nil => exact ⟨[], by simp, fun pos processor done => by rw [List.append_nil]; rfl⟩
  | cons unit units ih =>
      obtain ⟨first, isFirst, readFirst⟩ := exists_parseUnit (accepted unit List.mem_cons_self)
      obtain ⟨others, areOthers, readOthers⟩ := ih fun other otherMem =>
        accepted other (List.mem_cons_of_mem _ otherMem)
      refine ⟨first :: others, ?_, fun pos processor done => ?_⟩
      · rw [List.cons.injEq, isFirst, areOthers, List.forall_mem_cons]
      · obtain ⟨full, notEnd, read⟩ := readFirst (pos + 1)
        have isLine : readLine pos (unitLine unit) (.hardware processor done) =
            .ok (.hardware processor (done ++ [first])) := by
          rw [readLine, if_neg full, if_neg notEnd, read]
          rfl
        rw [List.map_cons, readLines_cons_of_ok isLine, readOthers, List.append_assoc,
          List.singleton_append]

/-- The aliases are read when no name moves the cut. -/
theorem readLines_aliasLines_eq_ok_iff {aliases : List SlotAlias}
    (accepted : ∀ entry ∈ aliases, entry.Accepted) (processor : Processor)
    (done : List SlotAlias) (pos : Nat) (place : Place) :
    readLines pos (.layout processor done []) (aliases.map aliasLine) = .ok place ↔
      (∀ entry ∈ aliases, ¬EndsOpen entry.name) ∧
        place = .layout processor (done ++ aliases) [] := by
  induction aliases generalizing done pos with
  | nil =>
      rw [List.map_nil, readLines, Except.ok.injEq, List.append_nil]
      simp [eq_comm]
  | cons entry aliases ih =>
      obtain ⟨full, notEnd, closed, isOpen⟩ :=
        parseLayoutLine_accepted (accepted entry List.mem_cons_self) (pos + 1)
      have isRest := ih fun other otherMem => accepted other (List.mem_cons_of_mem _ otherMem)
      rw [List.map_cons, List.forall_mem_cons]
      by_cases ends : EndsOpen entry.name
      · refine iff_of_false (fun read => ?_) (fun both => both.1.1 ends)
        rw [readLines] at read
        obtain ⟨next, readFirst, -⟩ := bind_eq_ok.mp read
        rw [readLine, if_neg full, if_neg notEnd] at readFirst
        obtain ⟨value, isValue, -⟩ := bind_eq_ok.mp readFirst
        exact isOpen ends value isValue
      · have isLine : readLine pos (aliasLine entry) (.layout processor done []) =
            .ok (.layout processor (done ++ [entry]) []) := by
          rw [readLine, if_neg full, if_neg notEnd, closed ends]
          rfl
        rw [readLines_cons_of_ok isLine, isRest, List.append_assoc, List.singleton_append,
          and_iff_right ends]

theorem readLines_slotUnitsLines {slotUnits : List (List String)}
    (accepted : ∀ units ∈ slotUnits, AcceptedUnits units) {slot : Nat}
    (inside : slot + slotUnits.length < 2 ^ 64) (processor : Processor) (aliases : List SlotAlias)
    (indexed : List (Nat × List String)) (pos : Nat) :
    readLines pos (.layout processor aliases indexed)
        ((slotUnits.zipIdx slot).map slotUnitsLine) =
      .ok (.layout processor aliases
        (indexed ++ (slotUnits.zipIdx slot).map fun entry => (entry.2, entry.1))) := by
  induction slotUnits generalizing indexed slot pos with
  | nil =>
      rw [List.zipIdx_nil, List.map_nil, List.map_nil, List.append_nil]
      rfl
  | cons units slotUnits ih =>
      rw [List.length_cons] at inside
      have isAccepted := accepted units List.mem_cons_self
      obtain ⟨full, notEnd, isEntry⟩ := parseLayoutLine_slotUnitsLine
        (fun unit unitMem => ⟨(isAccepted.pieces unit unitMem).1.solid,
          (isAccepted.pieces unit unitMem).2⟩) isAccepted.listed
        (Nat.lt_of_le_of_lt (Nat.le_add_right _ _) inside) (pos + 1)
      have isLine : readLine pos (slotUnitsLine (units, slot)) (.layout processor aliases indexed) =
          .ok (.layout processor aliases (indexed ++ [(slot, units)])) := by
        rw [readLine, if_neg full, if_neg notEnd, isEntry]
        rfl
      rw [List.zipIdx_cons, List.map_cons, readLines_cons_of_ok isLine,
        ih (fun other otherMem => accepted other (List.mem_cons_of_mem _ otherMem)) (by omega),
        List.map_cons, List.append_assoc, List.singleton_append]

section

variable {processor : Processor} (accepted : processor.Accepted)

include accepted

/-- The stanza after the layout is read when the memory size is a signed number. -/
theorem readLines_closingLines_eq_ok_iff {before : Processor}
    (isDefault : before.memorySize = defaultMemorySize) (pos : Nat) (place : Place) :
    readLines pos (.stanzas before) (closingLines processor) = .ok place ↔
      processor.memorySize < 2 ^ 63 ∧ place = .items { before with
        topology := processor.topology, memorySize := processor.memorySize } [] := by
  have last : ∀ (before : Processor) (pos : Nat), readLines pos (.stanzas before)
      ["  cache \x7b \x7d".toList, "  ".toList ++ topologyText processor, "\x7d".toList] =
        .ok (.items { before with topology := processor.topology } []) := by
    intro before pos
    have isCache : readLine pos "  cache \x7b \x7d".toList (.stanzas before) =
        .ok (.stanzas before) := rfl
    have isTrimmed : trim ("  ".toList ++ topologyText processor) = topologyText processor :=
      Text.trim_indent (solid_inlineText (.of_forall (by decide)) (by decide) _) (by decide)
    have isTopology : readLine (pos + 1) ("  ".toList ++ topologyText processor)
        (.stanzas before) = .ok (.stanzas { before with topology := processor.topology }) := by
      rw [readLine_stanza isTrimmed (by simp [topologyText, inlineText])
        (by simp [topologyText, inlineText]) (by simp [topologyText, inlineText])
        (by simp [topologyText, inlineText]), parseStanza_topology accepted.cpus]
      rfl
    rw [readLines_cons_of_ok isCache, readLines_cons_of_ok isTopology]
    rfl
  rw [closingLines, memoryLines]
  split
  · have isBlank : readLine pos [] (.stanzas before) = .ok (.stanzas before) := rfl
    have isTrimmed : trim ("  ".toList ++ memoryText processor) = memoryText processor :=
      Text.trim_indent (solid_inlineText (.of_forall (by decide)) (by decide) _) (by decide)
    have isMemory := readLine_stanza isTrimmed (by simp [memoryText, inlineText])
      (by simp [memoryText, inlineText]) (by simp [memoryText, inlineText])
      (by simp [memoryText, inlineText]) before (pos + 1)
    rw [parseStanza_memory] at isMemory
    rw [List.cons_append, readLines_cons_of_ok isBlank, List.singleton_append]
    by_cases inside : processor.memorySize < 2 ^ 63
    · rw [if_pos inside] at isMemory
      have isRead : readLine (pos + 1) ("  ".toList ++ memoryText processor) (.stanzas before) =
          .ok (.stanzas { before with memorySize := processor.memorySize }) := isMemory
      rw [readLines_cons_of_ok isRead, last, Except.ok.injEq, eq_comm]
      exact (and_iff_right inside).symm
    · rw [if_neg inside] at isMemory
      refine iff_of_false (fun read => ?_) (fun both => inside both.1)
      rw [readLines, isMemory] at read
      cases read
  · rename_i notOther
    have same : processor.memorySize = before.memorySize :=
      (not_not.mp notOther).trans isDefault.symm
    have inside : processor.memorySize < 2 ^ 63 := by
      rw [not_not.mp notOther]
      decide
    rw [List.nil_append, last, Except.ok.injEq, eq_comm, and_iff_right inside, same]

/-- The stanza of a processor is read when no alias moves the cut and the memory
size is a signed number. -/
theorem readLines_stanzaLines_eq_ok_iff :
    ∃ units, (units = processor.units ↔ ∀ unit ∈ processor.units, ¬EndsOpen unit.name) ∧
      ∀ pos place, readLines pos (.stanzas initialProcessor) (stanzaLines processor) = .ok place ↔
        (∀ entry ∈ processor.slotAliases, ¬EndsOpen entry.name) ∧
          processor.memorySize < 2 ^ 63 ∧ place = .items { processor with units } [] := by
  obtain ⟨units, sameUnits, readUnits⟩ := readLines_unitLines accepted.units
  refine ⟨units, sameUnits, fun pos place => ?_⟩
  have slots := accepted.slots
  have isWidth : ∀ pos, readLine pos (widthLine processor) (.stanzas initialProcessor) =
      .ok (.stanzas { initialProcessor with width := processor.width }) := by
    intro pos
    obtain ⟨isTrimmed, read⟩ := parseStanza_width accepted.width initialProcessor ⟨[], pos + 1⟩
    rw [readLine_stanza isTrimmed (by simp) (by simp) (by simp) (by simp), read]
    rfl
  have isBlank : ∀ pos before, readLine pos [] (.stanzas before) = .ok (.stanzas before) :=
    fun pos before => rfl
  have isHardware : ∀ pos before, readLine pos "  hardware \x7b".toList (.stanzas before) =
      .ok (.hardware before []) := fun pos before => rfl
  have isLayout : ∀ pos before, readLine pos "  layout slots \x7b".toList (.stanzas before) =
      .ok (.layout before [] []) := fun pos before => rfl
  have endsHardware : ∀ pos before, readLine pos "  \x7d".toList (.hardware before units) =
      .ok (.stanzas { before with units }) := fun pos before => rfl
  have isGap : ∀ pos before, readLine pos [] (.layout before processor.slotAliases []) =
      .ok (.layout before processor.slotAliases []) := fun pos before => rfl
  have endsLayout : ∀ pos before, readLine pos "  \x7d".toList (.layout before
      processor.slotAliases (processor.slotUnits.zipIdx.map fun entry => (entry.2, entry.1))) =
        .ok (.stanzas { before with
          slotAliases := processor.slotAliases, slotUnits := processor.slotUnits }) := by
    intro pos before
    change (slotUnitsOf (processor.slotUnits.zipIdx.map fun entry => (entry.2, entry.1))).bind _ = _
    rw [slotUnitsOf_zipIdx slots]
    rfl
  rw [stanzaLines, readLines_cons_of_ok (isWidth _), readLines_cons_of_ok (isBlank _ _),
    readLines_cons_of_ok (isHardware _ _), readLines_append, readUnits]
  change readLines _ (.hardware _ units) _ = _ ↔ _
  rw [readLines_cons_of_ok (endsHardware _ _), readLines_cons_of_ok (isBlank _ _),
    readLines_cons_of_ok (isLayout _ _), layoutLines, List.append_assoc, readLines_append,
    bind_eq_ok]
  simp only [readLines_aliasLines_eq_ok_iff accepted.aliases, List.nil_append]
  constructor
  · rintro ⟨next, ⟨closed, rfl⟩, read⟩
    rw [List.cons_append, readLines_cons_of_ok (isGap _ _), List.append_assoc, readLines_append,
      readLines_slotUnitsLines accepted.slotUnits (by omega)] at read
    change readLines _ (.layout _ _ (_ ++ _)) _ = _ at read
    rw [List.nil_append, List.singleton_append, readLines_cons_of_ok (endsLayout _ _),
      readLines_cons_of_ok (isBlank _ _), readLines_closingLines_eq_ok_iff accepted rfl] at read
    exact ⟨closed, read⟩
  · rintro ⟨closed, inside, isPlace⟩
    refine ⟨_, ⟨closed, rfl⟩, ?_⟩
    rw [List.cons_append, readLines_cons_of_ok (isGap _ _), List.append_assoc, readLines_append,
      readLines_slotUnitsLines accepted.slotUnits (by omega)]
    change readLines _ (.layout _ _ (_ ++ _)) _ = _
    rw [List.nil_append, List.singleton_append, readLines_cons_of_ok (endsLayout _ _),
      readLines_cons_of_ok (isBlank _ _), readLines_closingLines_eq_ok_iff accepted rfl]
    exact ⟨inside, isPlace⟩

end

end Parser

end VliwCompiler.Asm
