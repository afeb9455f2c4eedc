import VliwCompiler.Asm.BundleText

/-!
# Reading back processors

The lines of the processor stanza are read back as the processor.
-/

namespace VliwCompiler.Asm

open Text (trim parseUnsigned parseSigned isWhitespace Solid IsLine)

/-! ### The hardware stanza -/

/-- The line of a unit. -/
def unitLine (unit : UnitDecl) : List Char :=
  "    ".toList ++ ("unit ".toList ++ (unit.name.toList ++ (" = ".toList ++ unit.kind.toList)))

/-- The line of a unit is cut at the first separator. -/
theorem parseUnit_unitLine {unit : UnitDecl} (isKind : Solid unit.kind.toList)
    (full : unit.kind.toList ≠ []) {name kind : List Char}
    (isCut : (unit.name.toList ++ (" = ".toList ++ unit.kind.toList)).dropInfix? " = ".toList =
      some (name, kind)) (pos : Nat) :
    trim (unitLine unit) ≠ [] ∧ trim (unitLine unit) ≠ "\x7d".toList ∧
      Parser.parseUnit pos (trim (unitLine unit)) =
        .ok ⟨String.ofList (trim name), String.ofList (trim kind)⟩ := by
  have isSolid : Solid ("unit ".toList ++
      (unit.name.toList ++ (" = ".toList ++ unit.kind.toList))) := by
    have isUnit : Solid "unit".toList := .of_forall (by decide)
    have both := isUnit.append (" ".toList ++ (unit.name.toList ++ " = ".toList)) isKind
      (by decide) full
    simpa using both
  rw [unitLine, Text.trim_indent isSolid (by decide)]
  refine ⟨by simp, by simp, ?_⟩
  rw [Parser.parseUnit, Text.dropPrefix?_append]
  change (Parser.orErr pos "bad unit decl: " _
    ((unit.name.toList ++ (" = ".toList ++ unit.kind.toList)).dropInfix? " = ".toList)).bind _ = _
  rw [isCut]
  rfl

theorem parseHardware_unitLines {units : List UnitDecl}
    (areUnits : ∀ unit ∈ units, IsName unit.name ∧ IsName unit.kind) (done : List UnitDecl)
    (rest : List (List Char)) (pos : Nat) :
    Parser.parseHardware done (units.map unitLine ++ "  \x7d".toList :: rest) pos =
      .ok (done ++ units, ⟨rest, pos + units.length + 1⟩) := by
  induction units generalizing done pos with
  | nil =>
      have isEnd : trim "  \x7d".toList = "\x7d".toList := by decide
      rw [List.map_nil, List.nil_append, Parser.parseHardware, isEnd, if_neg (by decide),
        if_pos rfl]
      simp
  | cons unit units ih =>
      obtain ⟨isName, isKind⟩ := areUnits unit List.mem_cons_self
      have isCut := Text.dropInfix?_append ' ' "= ".toList unit.kind.toList
        (isName.not_mem (by decide))
      obtain ⟨full, notEnd, isUnit⟩ := parseUnit_unitLine isKind.solid isKind.full isCut (pos + 1)
      rw [Text.trim_of_solid isName.solid, Text.trim_of_solid isKind.solid, String.ofList_toList,
        String.ofList_toList] at isUnit
      rw [List.map_cons, List.cons_append, Parser.parseHardware, if_neg full, if_neg notEnd, isUnit]
      change Parser.parseHardware (done ++ [unit]) _ (pos + 1) = _
      rw [ih fun other otherMem => areUnits other (List.mem_cons_of_mem _ otherMem)]
      have isPos : pos + 1 + units.length + 1 = pos + (units.length + 1) + 1 := by omega
      simp [isPos]

/-! ### The layout stanza -/

/-- The line of an alias. -/
def aliasLine (entry : SlotAlias) : List Char :=
  "    ".toList ++ ("alias ".toList ++ (entry.name.toList ++
    (" = ".toList ++ Nat.toDigits 10 entry.slot)))

/-- The line of the units of a slot. -/
def slotUnitsLine (entry : List String × Nat) : List Char :=
  "    ".toList ++ (Nat.toDigits 10 entry.2 ++ (" = ".toList ++
    ("\x7b ".toList ++ (List.intercalate ", ".toList (entry.1.map String.toList) ++ " \x7d".toList))))

theorem solid_digits (n : Nat) : Solid (Nat.toDigits 10 n) :=
  Text.solid_toDigits (by decide) (by decide) n

/-- The line of an alias is cut at the first separator. -/
theorem parseLayoutLine_aliasLine {entry : SlotAlias} {name index : List Char}
    (isCut : (entry.name.toList ++ (" = ".toList ++ Nat.toDigits 10 entry.slot)).dropInfix?
      " = ".toList = some (name, index)) (pos : Nat) :
    trim (aliasLine entry) ≠ [] ∧ trim (aliasLine entry) ≠ "\x7d".toList ∧
      Parser.parseLayoutLine pos (trim (aliasLine entry)) =
        (Parser.orErr pos "bad alias index: " index
          (parseUnsigned 10 (2 ^ 64) (trim index))).map
            fun slot => .inl ⟨String.ofList (trim name), slot⟩ := by
  have isSolid : Solid ("alias ".toList ++ (entry.name.toList ++
      (" = ".toList ++ Nat.toDigits 10 entry.slot))) := by
    have isAlias : Solid "alias".toList := .of_forall (by decide)
    have both := isAlias.append (" ".toList ++ (entry.name.toList ++ " = ".toList))
      (solid_digits entry.slot) (by decide) Nat.toDigits_ne_nil
    simpa using both
  rw [aliasLine, Text.trim_indent isSolid (by decide)]
  refine ⟨by simp, by simp, ?_⟩
  rw [Parser.parseLayoutLine, Text.dropPrefix?_append]
  dsimp only
  rw [isCut]
  change (Parser.orErr pos "bad alias index: " index
    (parseUnsigned 10 (2 ^ 64) (trim index))).bind _ = _
  cases parseUnsigned 10 (2 ^ 64) (trim index) <;> rfl

/-- An alias is read back when its name ends at the first separator. -/
theorem parseLayoutLine_alias {entry : SlotAlias} (isSolid : Solid entry.name.toList)
    (inside : entry.slot < 2 ^ 64)
    (isCut : (entry.name.toList ++ (" = ".toList ++ Nat.toDigits 10 entry.slot)).dropInfix?
      " = ".toList = some (entry.name.toList, Nat.toDigits 10 entry.slot)) (pos : Nat) :
    Parser.parseLayoutLine pos (trim (aliasLine entry)) = .ok (.inl entry) := by
  rw [(parseLayoutLine_aliasLine isCut pos).2.2, Text.trim_of_solid (solid_digits entry.slot),
    Text.parseUnsigned_toDigits (by decide) (by decide) inside, Text.trim_of_solid isSolid,
    String.ofList_toList]
  rfl

/-- A list of names is cut at its commas. -/
theorem splitOn_intercalate_comma {part : List Char} {parts : List (List Char)}
    (noComma : ∀ other ∈ part :: parts, ',' ∉ other) :
    (List.intercalate ", ".toList (part :: parts)).splitOn ',' = part :: parts.map (' ' :: ·) := by
  have isIntercalate : ∀ (first : List Char) (others : List (List Char)),
      List.intercalate ", ".toList (first :: others) =
        [','].intercalate (first :: others.map (' ' :: ·)) := by
    intro first others
    induction others generalizing first with
    | nil => simp
    | cons next others ih =>
        rw [List.intercalate_cons_cons, List.map_cons, List.intercalate_cons_cons, ih]
        cases others <;> simp
  rw [isIntercalate, List.splitOn_intercalate _ _ (by simp)]
  intro other otherMem
  rcases List.mem_cons.mp otherMem with rfl | inRest
  · exact noComma _ List.mem_cons_self
  · obtain ⟨original, originalMem, rfl⟩ := List.mem_map.mp inRest
    simp [noComma original (List.mem_cons_of_mem _ originalMem)]

theorem trim_intercalate_ne_nil {parts : List (List Char)} (full : parts ≠ [])
    (areSolid : ∀ part ∈ parts, Solid part) (listed : parts ≠ [[]]) :
    trim (List.intercalate ", ".toList parts) ≠ [] := by
  cases parts with
  | nil => exact absurd rfl full
  | cons part parts =>
      cases parts with
      | nil =>
          rw [List.intercalate_singleton, Text.trim_of_solid (areSolid part List.mem_cons_self)]
          rintro rfl
          exact listed rfl
      | cons next parts =>
          rw [List.intercalate_cons_cons, List.append_assoc]
          have isComma : ", ".toList ++ List.intercalate ", ".toList (next :: parts) =
              ',' :: (" ".toList ++ List.intercalate ", ".toList (next :: parts)) := rfl
          rw [isComma, Text.trim_append_cons (by decide)]
          simp

/-- The names of units are read back from the list in braces. -/
theorem units_intercalate {units : List String}
    (pieces : ∀ unit ∈ units, Solid unit.toList ∧ ',' ∉ unit.toList) (listed : units ≠ [""]) :
    (if trim (List.intercalate ", ".toList (units.map String.toList)) = [] then []
      else ((trim (List.intercalate ", ".toList (units.map String.toList))).splitOn ',').map
        (String.ofList ∘ trim)) = units := by
  by_cases full : units = []
  · subst full
    rfl
  have isFull : trim (List.intercalate ", ".toList (units.map String.toList)) ≠ [] := by
    refine trim_intercalate_ne_nil (by simpa using full) ?_ (fun isEmpty => listed ?_)
    · intro part partMem
      obtain ⟨unit, unitMem, rfl⟩ := List.mem_map.mp partMem
      exact (pieces unit unitMem).1
    · obtain ⟨unit, rfl, isName⟩ := List.map_eq_singleton_iff.mp isEmpty
      exact congrArg ([·]) (String.toList_inj.mp isName)
  rw [if_neg isFull, ← List.map_map, Text.map_trim_splitOn_trim (by decide), List.map_map]
  clear listed isFull
  cases units with
  | nil => exact absurd rfl full
  | cons unit units =>
      have noComma : ∀ text ∈ (unit :: units).map String.toList, ',' ∉ text := by
        intro text textMem
        obtain ⟨other, otherMem, rfl⟩ := List.mem_map.mp textMem
        exact (pieces other otherMem).2
      have trimmed : units.map (((String.ofList ∘ trim) ∘ fun text => ' ' :: text) ∘
          String.toList) = units.map id := by
        refine List.map_congr_left fun other otherMem => ?_
        have isOther : trim ([' '] ++ other.toList) = other.toList :=
          Text.trim_indent (pieces other (List.mem_cons_of_mem _ otherMem)).1 (by decide)
        exact (congrArg String.ofList isOther).trans String.ofList_toList
      rw [List.map_cons, splitOn_intercalate_comma noComma, List.map_cons, List.map_map,
        List.map_map, trimmed, List.map_id, Function.comp_apply,
        Text.trim_of_solid (pieces unit List.mem_cons_self).1, String.ofList_toList]

theorem rdropWhile_close (inner : List Char) :
    (" ".toList ++ (inner ++ " ".toList) ++ ['\x7d']).rdropWhile (· = '\x7d') =
      " ".toList ++ (inner ++ " ".toList) := by
  rw [List.rdropWhile_concat_pos _ _ _ (by decide), ← List.append_assoc]
  have isBlank : (" ".toList ++ inner ++ " ".toList) = (" ".toList ++ inner) ++ [' '] := rfl
  rw [isBlank, List.rdropWhile_concat_neg _ _ _ (by decide)]

/-- The text between the braces. -/
theorem trim_braces (inner : List Char) :
    trim (((trim ("\x7b ".toList ++ (inner ++ " \x7d".toList))).dropWhile (· = '\x7b')).rdropWhile
      (· = '\x7d')) = trim inner := by
  have isOpen : Solid "\x7b".toList := .of_forall (by decide)
  have isClose : Solid "\x7d".toList := .of_forall (by decide)
  have isSolid : Solid ("\x7b ".toList ++ (inner ++ " \x7d".toList)) := by
    have both := isOpen.append (" ".toList ++ (inner ++ " ".toList)) isClose (by decide) (by decide)
    simpa using both
  have isDropped : ("\x7b ".toList ++ (inner ++ " \x7d".toList)).dropWhile (· = '\x7b') =
      " ".toList ++ (inner ++ " ".toList) ++ ['\x7d'] := by
    simp
  rw [Text.trim_of_solid isSolid, isDropped, rdropWhile_close]
  exact Text.trim_surrounded inner (by decide) (by decide)

theorem parseLayoutLine_slotUnitsLine {units : List String} {slot : Nat}
    (pieces : ∀ unit ∈ units, Solid unit.toList ∧ ',' ∉ unit.toList) (listed : units ≠ [""])
    (inside : slot < 2 ^ 64) (pos : Nat) :
    trim (slotUnitsLine (units, slot)) ≠ [] ∧
      trim (slotUnitsLine (units, slot)) ≠ "\x7d".toList ∧
      Parser.parseLayoutLine pos (trim (slotUnitsLine (units, slot))) = .ok (.inr (slot, units)) := by
  have isIndex := solid_digits slot
  have isSolid : Solid (Nat.toDigits 10 slot ++ (" = ".toList ++ ("\x7b ".toList ++
      (List.intercalate ", ".toList (units.map String.toList) ++ " \x7d".toList)))) := by
    have isClose : Solid "\x7d".toList := .of_forall (by decide)
    have both := isIndex.append (" = ".toList ++ ("\x7b ".toList ++
      (List.intercalate ", ".toList (units.map String.toList) ++ " ".toList))) isClose
      Nat.toDigits_ne_nil (by decide)
    simpa using both
  obtain ⟨c, digits, isDigits⟩ : ∃ c digits, Nat.toDigits 10 slot = c :: digits :=
    List.exists_cons_of_ne_nil Nat.toDigits_ne_nil
  have isDigit : c.isDigit = true :=
    Nat.isDigit_of_mem_toDigits (by decide) (by decide) (isDigits ▸ List.mem_cons_self)
  have noAlias : c ≠ 'a' := by
    rintro rfl
    exact absurd isDigit (by decide)
  have notClose : c ≠ '\x7d' := by
    rintro rfl
    exact absurd isDigit (by decide)
  have noBlank : ' ' ∉ Nat.toDigits 10 slot :=
    Text.not_mem_toDigits (by decide) (by decide) (by decide)
  have isCut : (Nat.toDigits 10 slot ++ (" = ".toList ++ ("\x7b ".toList ++
      (List.intercalate ", ".toList (units.map String.toList) ++ " \x7d".toList)))).dropInfix?
        " = ".toList = some (Nat.toDigits 10 slot, "\x7b ".toList ++
          (List.intercalate ", ".toList (units.map String.toList) ++ " \x7d".toList)) :=
    Text.dropInfix?_append ' ' _ _ noBlank
  have isNumber : parseUnsigned 10 (2 ^ 64) (trim (Nat.toDigits 10 slot)) = some slot := by
    rw [Text.trim_of_solid isIndex]
    exact Text.parseUnsigned_toDigits (by decide) (by decide) inside
  rw [slotUnitsLine, Text.trim_indent isSolid (by decide)]
  refine ⟨by simp, by simp [isDigits, notClose], ?_⟩
  have notAlias : (Nat.toDigits 10 slot ++ (" = ".toList ++ ("\x7b ".toList ++
      (List.intercalate ", ".toList (units.map String.toList) ++ " \x7d".toList)))).dropPrefix?
        "alias ".toList = none := by
    simp [isDigits, List.dropPrefix?, noAlias]
  rw [Parser.parseLayoutLine, notAlias]
  dsimp only
  rw [isCut]
  change (Parser.orErr pos "bad slot index: " _
    (parseUnsigned 10 (2 ^ 64) (trim (Nat.toDigits 10 slot)))).bind _ = _
  rw [isNumber]
  have isInner := trim_braces (List.intercalate ", ".toList (units.map String.toList))
  have isUnits := units_intercalate pieces listed
  rw [← isInner] at isUnits
  exact congrArg (fun read => (.ok (.inr (slot, read)) :
    ParseOutcome (SlotAlias ⊕ Nat × List String))) isUnits

/-- Setting the elements of a list one after the other. -/
theorem foldl_set_zipIdx {α : Type} (items done : List α) (default : α) :
    ((items.zipIdx done.length).map fun entry => (entry.2, entry.1)).foldl
        (fun result entry => result.set entry.1 entry.2)
        (done ++ List.replicate items.length default) = done ++ items := by
  induction items generalizing done with
  | nil => simp
  | cons item items ih =>
      have isSet : (done ++ List.replicate (items.length + 1) default).set done.length item =
          done ++ [item] ++ List.replicate items.length default := by
        rw [List.set_append_right _ _ (Nat.le_refl _), Nat.sub_self, List.replicate_succ]
        simp
      have isLength : done.length + 1 = (done ++ [item]).length := by simp
      rw [List.zipIdx_cons, List.map_cons, List.foldl_cons, List.length_cons, isSet, isLength, ih]
      simp

/-- The units of the slots in order are the units of the processor. -/
theorem slotUnitsOf_zipIdx {slotUnits : List (List String)}
    (fits : slotUnits.length * 24 < 2 ^ 63) :
    Parser.slotUnitsOf (slotUnits.zipIdx.map fun entry => (entry.2, entry.1)) = .ok slotUnits := by
  have isIndices : (slotUnits.zipIdx.map fun entry => (entry.2, entry.1)).map (·.1) =
      List.range slotUnits.length := by
    rw [List.map_map, List.range_eq_range']
    exact List.zipIdx_map_snd 0 slotUnits
  have isSorted : (slotUnits.zipIdx.map fun entry => (entry.2, entry.1)).mergeSort
      (fun first second => first.1 ≤ second.1) =
        slotUnits.zipIdx.map fun entry => (entry.2, entry.1) := by
    refine List.mergeSort_of_pairwise ?_
    have ordered : (List.range slotUnits.length).Pairwise (· ≤ ·) :=
      List.pairwise_lt_range.imp Nat.le_of_lt
    rw [← isIndices, List.pairwise_map] at ordered
    exact ordered.imp fun before => decide_eq_true before
  rw [Parser.slotUnitsOf, isIndices]
  cases isLength : slotUnits.length with
  | zero =>
      rw [List.eq_nil_of_length_eq_zero isLength]
      rfl
  | succ count =>
      have isMax : (List.range (count + 1)).max? = some count := by
        rw [List.max?_eq_some_iff]
        exact ⟨by simp, fun slot slotMem => Nat.le_of_lt_succ (List.mem_range.mp slotMem)⟩
      have filled := foldl_set_zipIdx slotUnits [] ([] : List String)
      rw [List.length_nil, List.nil_append, List.nil_append, isLength] at filled
      rw [isMax]
      dsimp only
      rw [if_neg (by omega), if_neg (by omega), isSorted, filled]

theorem parseLayout_aliasLines {aliases : List SlotAlias}
    (areAliases : ∀ entry ∈ aliases, IsName entry.name ∧ entry.slot < 2 ^ 64)
    (done : List SlotAlias) (rest : List (List Char)) (pos : Nat) :
    Parser.parseLayout done [] (aliases.map aliasLine ++ rest) pos =
      Parser.parseLayout (done ++ aliases) [] rest (pos + aliases.length) := by
  induction aliases generalizing done pos with
  | nil => simp
  | cons entry aliases ih =>
      obtain ⟨isName, inside⟩ := areAliases entry List.mem_cons_self
      have isCut := Text.dropInfix?_append ' ' "= ".toList (Nat.toDigits 10 entry.slot)
        (isName.not_mem (by decide))
      obtain ⟨full, notEnd, -⟩ := parseLayoutLine_aliasLine isCut (pos + 1)
      have isEntry := parseLayoutLine_alias isName.solid inside isCut (pos + 1)
      rw [List.map_cons, List.cons_append, Parser.parseLayout, if_neg full, if_neg notEnd, isEntry]
      change Parser.parseLayout (done ++ [entry]) [] _ (pos + 1) = _
      rw [ih fun other otherMem => areAliases other (List.mem_cons_of_mem _ otherMem),
        List.append_assoc, List.singleton_append, List.length_cons, Nat.add_assoc, Nat.add_comm 1]

theorem parseLayout_slotUnitsLines {aliases : List SlotAlias} {slotUnits : List (List String)}
    (areNames : ∀ units ∈ slotUnits, ∀ unit ∈ units, IsName unit) {slot : Nat}
    (inside : slot + slotUnits.length < 2 ^ 64) (indexed : List (Nat × List String))
    (rest : List (List Char)) (pos : Nat) :
    Parser.parseLayout aliases indexed ((slotUnits.zipIdx slot).map slotUnitsLine ++ rest) pos =
      Parser.parseLayout aliases
        (indexed ++ (slotUnits.zipIdx slot).map fun entry => (entry.2, entry.1)) rest
        (pos + slotUnits.length) := by
  induction slotUnits generalizing indexed slot pos with
  | nil => simp
  | cons units slotUnits ih =>
      rw [List.length_cons] at inside
      have isIndex : slot < 2 ^ 64 := by omega
      have areUnits := areNames units List.mem_cons_self
      have pieces : ∀ unit ∈ units, Solid unit.toList ∧ ',' ∉ unit.toList := fun unit unitMem =>
        ⟨(areUnits unit unitMem).solid, (areUnits unit unitMem).not_mem (by decide)⟩
      have listed : units ≠ [""] := by
        rintro rfl
        exact (areUnits "" List.mem_cons_self).full rfl
      obtain ⟨full, notEnd, isEntry⟩ :=
        parseLayoutLine_slotUnitsLine pieces listed isIndex (pos + 1)
      rw [List.zipIdx_cons, List.map_cons, List.cons_append, Parser.parseLayout, if_neg full,
        if_neg notEnd, isEntry]
      change Parser.parseLayout aliases (indexed ++ [(slot, units)]) _ (pos + 1) = _
      rw [ih (fun other otherMem => areNames other (List.mem_cons_of_mem _ otherMem)) (by omega),
        List.append_assoc, List.singleton_append, List.length_cons, Nat.add_assoc, Nat.add_comm 1]
      rfl

/-- The lines of the layout stanza. -/
def layoutLines (processor : Processor) : List (List Char) :=
  processor.slotAliases.map aliasLine ++
    ([] :: (processor.slotUnits.zipIdx.map slotUnitsLine ++ ["  \x7d".toList]))

theorem parseLayout_layoutLines {processor : Processor} (encodable : processor.Encodable)
    (rest : List (List Char)) (pos : Nat) :
    ∃ pos', Parser.parseLayout [] [] (layoutLines processor ++ rest) pos =
      .ok ((processor.slotAliases, processor.slotUnits), ⟨rest, pos'⟩) := by
  have isBlank : trim [] = [] := rfl
  have isEnd : trim "  \x7d".toList = "\x7d".toList := by decide
  have fits := encodable.slots
  refine ⟨pos + processor.slotAliases.length + 1 + processor.slotUnits.length + 1, ?_⟩
  rw [layoutLines, List.append_assoc, parseLayout_aliasLines encodable.aliases, List.nil_append,
    List.cons_append, Parser.parseLayout, if_pos isBlank, List.append_assoc,
    parseLayout_slotUnitsLines encodable.slotUnits (by omega), List.nil_append,
    List.singleton_append, Parser.parseLayout, isEnd, if_neg (by decide), if_pos rfl,
    slotUnitsOf_zipIdx fits]
  rfl

/-! ### The processor stanza -/

section

variable (processor : Processor)

def widthLine : List Char :=
  "  ".toList ++ ("width ".toList ++ Nat.toDigits 10 processor.width)

/-- A stanza on one line. -/
def inlineText (name inner : List Char) : List Char :=
  name ++ (" \x7b ".toList ++ (inner ++ " \x7d".toList))

def topologyText : List Char :=
  inlineText "topology".toList ("cpus ".toList ++ Nat.toDigits 10 processor.topology.cpus)

def memoryText : List Char :=
  inlineText "memory".toList ("size ".toList ++ (hex processor.memorySize).toList)

def memoryLines : List (List Char) :=
  if processor.memorySize ≠ defaultMemorySize then [[], "  ".toList ++ memoryText processor] else []

/-- The lines of the processor stanza after the layout. -/
def closingLines : List (List Char) :=
  memoryLines processor ++
    ["  cache \x7b \x7d".toList, "  ".toList ++ topologyText processor, "\x7d".toList]

/-- The lines of the processor stanza after the first. -/
def stanzaLines : List (List Char) :=
  widthLine processor :: [] :: "  hardware \x7b".toList ::
    (processor.units.map unitLine ++ "  \x7d".toList :: [] :: "  layout slots \x7b".toList ::
      (layoutLines processor ++ [] :: closingLines processor))

variable {processor}

theorem parseStanzas_blank (fuel : Nat) (rest : List (List Char)) (pos : Nat) :
    Parser.parseStanzas fuel processor ⟨[] :: rest, pos⟩ =
      Parser.parseStanzas fuel processor ⟨rest, pos + 1⟩ := by
  cases fuel with
  | zero => rfl
  | succ fuel =>
      have isBlank : Parser.skipBlank ⟨[] :: rest, pos⟩ = Parser.skipBlank ⟨rest, pos + 1⟩ := rfl
      rw [Parser.parseStanzas, Parser.parseStanzas, isBlank]

/-- A line of the processor stanza other than its end. -/
theorem parseStanzas_line {line trimmed : List Char} (isTrimmed : trim line = trimmed)
    (full : trimmed ≠ []) (notEnd : trimmed ≠ "\x7d".toList) {after : Processor}
    {rest others : List (List Char)} {pos pos' : Nat}
    (read : Parser.parseStanza processor trimmed ⟨rest, pos + 1⟩ = .ok (after, ⟨others, pos'⟩))
    (fuel : Nat) :
    Parser.parseStanzas (fuel + 1) processor ⟨line :: rest, pos⟩ =
      Parser.parseStanzas fuel after ⟨others, pos'⟩ := by
  rw [Parser.parseStanzas, skipBlank_of_full (by rw [isTrimmed]; exact full)]
  change (if trim line = "\x7d".toList then _
    else (Parser.parseStanza processor (trim line) ⟨rest, pos + 1⟩).bind _) = _
  rw [isTrimmed, if_neg notEnd, read]
  rfl

theorem parseStanza_width (inside : processor.width < 2 ^ 32) (before : Processor)
    (parser : Parser) :
    trim (widthLine processor) = "width ".toList ++ Nat.toDigits 10 processor.width ∧
      Parser.parseStanza before ("width ".toList ++ Nat.toDigits 10 processor.width) parser =
        .ok ({ before with width := processor.width }, parser) := by
  have isDigits := solid_digits processor.width
  have isWidth : Solid "width".toList := .of_forall (by decide)
  have isNumber : parseUnsigned 10 (2 ^ 32) (trim (Nat.toDigits 10 processor.width)) =
      some processor.width := by
    rw [Text.trim_of_solid isDigits]
    exact Text.parseUnsigned_toDigits (by decide) (by decide) inside
  refine ⟨Text.trim_indent ?_ (by decide), ?_⟩
  · simpa using isWidth.append " ".toList isDigits (by decide) Nat.toDigits_ne_nil
  · rw [Parser.parseStanza, Text.dropPrefix?_append]
    dsimp only
    rw [isNumber]
    rfl

theorem solid_inlineText {name : List Char} (isName : Solid name) (full : name ≠ [])
    (inner : List Char) : Solid (inlineText name inner) := by
  have isClose : Solid "\x7d".toList := .of_forall (by decide)
  simpa [inlineText] using
    isName.append (" \x7b ".toList ++ (inner ++ " ".toList)) isClose full (by decide)

theorem inlineStanza_inlineText {inner : List Char} (solid : Solid inner) (name : List Char) :
    Parser.inlineStanza name (inlineText name inner) = some inner := by
  have isOpen : Solid "\x7b".toList := .of_forall (by decide)
  have isClose : Solid "\x7d".toList := .of_forall (by decide)
  have isRest : trim (" \x7b ".toList ++ (inner ++ " \x7d".toList)) =
      "\x7b".toList ++ (" ".toList ++ (inner ++ " ".toList) ++ ['\x7d']) := by
    have both := isOpen.append (" ".toList ++ (inner ++ " ".toList)) isClose (by decide) (by decide)
    have trimmed : trim (" ".toList ++ _) = _ := Text.trim_indent both (by decide)
    simpa using trimmed
  rw [Parser.inlineStanza, inlineText, Text.dropPrefix?_append]
  change ((trim (" \x7b ".toList ++ (inner ++ " \x7d".toList))).dropPrefix? "\x7b".toList).bind _ = _
  rw [isRest, Text.dropPrefix?_append]
  change some (trim ((" ".toList ++ (inner ++ " ".toList) ++ ['\x7d']).rdropWhile (· = '\x7d'))) = _
  rw [rdropWhile_close, Text.trim_append solid (by decide) (by decide)]

theorem parseStanza_topology (inside : processor.topology.cpus < 2 ^ 32) (before : Processor)
    (parser : Parser) :
    Parser.parseStanza before (topologyText processor) parser =
      .ok ({ before with topology := processor.topology }, parser) := by
  have isDigits := solid_digits processor.topology.cpus
  have isSolid : Solid ("cpus ".toList ++ Nat.toDigits 10 processor.topology.cpus) := by
    have isCpus : Solid "cpus".toList := .of_forall (by decide)
    simpa using isCpus.append " ".toList isDigits (by decide) Nat.toDigits_ne_nil
  have isTopology : Parser.parseTopologyInline (topologyText processor) =
      some processor.topology := by
    rw [Parser.parseTopologyInline, topologyText, inlineStanza_inlineText isSolid]
    change (("cpus ".toList ++ Nat.toDigits 10 processor.topology.cpus).dropPrefix?
      "cpus ".toList).bind _ = _
    rw [Text.dropPrefix?_append]
    change (parseUnsigned 10 (2 ^ 32) (trim (Nat.toDigits 10 processor.topology.cpus))).bind _ = _
    rw [Text.trim_of_solid isDigits, Text.parseUnsigned_toDigits (by decide) (by decide) inside]
    rfl
  have noWidth : (topologyText processor).dropPrefix? "width ".toList = none := by
    simp [topologyText, inlineText, List.dropPrefix?]
  have noCache : (topologyText processor).dropPrefix? "cache \x7b".toList = none := by
    simp [topologyText, inlineText, List.dropPrefix?]
  have isPrefix : (topologyText processor).dropPrefix? "topology \x7b".toList ≠ none := by
    simp [topologyText, inlineText, List.dropPrefix?]
  rw [Parser.parseStanza, noWidth]
  dsimp only
  rw [if_neg (by simp [topologyText, inlineText]), if_neg (by simp [topologyText, inlineText]),
    noCache, if_neg (by decide), if_pos (Option.isSome_iff_ne_none.mpr isPrefix), isTopology]
  rfl

/-- The memory size is written as an unsigned number and read as a signed one. -/
theorem parseStanza_memory (before : Processor) (parser : Parser) :
    Parser.parseStanza before (memoryText processor) parser =
      (Parser.orErr parser.pos "bad memory: " (memoryText processor)
        (if processor.memorySize < 2 ^ 63 then some processor.memorySize else none)).map
          fun memorySize => ({ before with memorySize }, parser) := by
  have isHex := solid_hex processor.memorySize
  have isSolid : Solid ("size ".toList ++ (hex processor.memorySize).toList) := by
    have isSize : Solid "size".toList := .of_forall (by decide)
    simpa using isSize.append " ".toList isHex (by decide) (isPart_hex processor.memorySize).full
  have isMemory : Parser.parseMemoryInline (memoryText processor) =
      if processor.memorySize < 2 ^ 63 then some processor.memorySize else none := by
    rw [Parser.parseMemoryInline, memoryText, inlineStanza_inlineText isSolid]
    change (("size ".toList ++ (hex processor.memorySize).toList).dropPrefix?
      "size ".toList).bind _ = _
    rw [Text.dropPrefix?_append]
    change (parseHexOrDec (trim (hex processor.memorySize).toList)).bind _ = _
    rw [Text.trim_of_solid isHex, parseHexOrDec_hex_eq]
    split
    · rename_i inside
      change some (BitVec.ofNat 64 processor.memorySize).toNat = _
      rw [BitVec.toNat_ofNat, Nat.mod_eq_of_lt (by omega)]
    · rfl
  have noWidth : (memoryText processor).dropPrefix? "width ".toList = none := by
    simp [memoryText, inlineText, List.dropPrefix?]
  have noCache : (memoryText processor).dropPrefix? "cache \x7b".toList = none := by
    simp [memoryText, inlineText, List.dropPrefix?]
  have noTopology : (memoryText processor).dropPrefix? "topology \x7b".toList = none := by
    simp [memoryText, inlineText, List.dropPrefix?]
  have isPrefix : (memoryText processor).dropPrefix? "memory \x7b".toList ≠ none := by
    simp [memoryText, inlineText, List.dropPrefix?]
  rw [Parser.parseStanza, noWidth]
  dsimp only
  rw [if_neg (by simp [memoryText, inlineText]), if_neg (by simp [memoryText, inlineText]),
    noCache, if_neg (by decide), noTopology, if_neg (by decide),
    if_pos (Option.isSome_iff_ne_none.mpr isPrefix), isMemory]
  split <;> rfl

theorem parseStanza_memory_of_lt (inside : processor.memorySize < 2 ^ 63) (before : Processor)
    (parser : Parser) :
    Parser.parseStanza before (memoryText processor) parser =
      .ok ({ before with memorySize := processor.memorySize }, parser) := by
  rw [parseStanza_memory, if_pos inside]
  rfl

theorem parseStanza_hardware (encodable : processor.Encodable) (before : Processor)
    (rest : List (List Char)) (pos : Nat) :
    Parser.parseStanza before "hardware \x7b".toList
        ⟨processor.units.map unitLine ++ "  \x7d".toList :: rest, pos⟩ =
      .ok ({ before with units := processor.units },
        ⟨rest, pos + processor.units.length + 1⟩) := by
  have noWidth : "hardware \x7b".toList.dropPrefix? "width ".toList = none := by decide
  rw [Parser.parseStanza, noWidth]
  dsimp only
  rw [if_pos rfl, parseHardware_unitLines encodable.units]
  rfl

theorem parseStanza_layout (encodable : processor.Encodable) (before : Processor)
    (rest : List (List Char)) (pos : Nat) :
    ∃ pos', Parser.parseStanza before "layout slots \x7b".toList
        ⟨layoutLines processor ++ rest, pos⟩ =
      .ok ({ before with
        slotAliases := processor.slotAliases, slotUnits := processor.slotUnits }, ⟨rest, pos'⟩) := by
  have noWidth : "layout slots \x7b".toList.dropPrefix? "width ".toList = none := by decide
  obtain ⟨pos', read⟩ := parseLayout_layoutLines encodable rest pos
  refine ⟨pos', ?_⟩
  rw [Parser.parseStanza, noWidth]
  dsimp only
  rw [if_neg (by decide), if_pos rfl, read]
  rfl

theorem parseStanza_cache (before : Processor) (parser : Parser) :
    Parser.parseStanza before "cache \x7b \x7d".toList parser = .ok (before, parser) := rfl

theorem parseStanzas_topology (encodable : processor.Encodable) (before : Processor) (fuel : Nat)
    (rest : List (List Char)) (pos : Nat) :
    Parser.parseStanzas (fuel + 3) before ⟨"  cache \x7b \x7d".toList ::
        ("  ".toList ++ topologyText processor) :: "\x7d".toList :: rest, pos⟩ =
      .ok ({ before with topology := processor.topology }, ⟨rest, pos + 3⟩) := by
  have isCache : trim "  cache \x7b \x7d".toList = "cache \x7b \x7d".toList := by decide
  have isTopology : trim ("  ".toList ++ topologyText processor) = topologyText processor :=
    Text.trim_indent (solid_inlineText (.of_forall (by decide)) (by decide) _) (by decide)
  rw [parseStanzas_line isCache (by decide) (by decide) (parseStanza_cache _ _),
    parseStanzas_line isTopology (by simp [topologyText, inlineText])
      (by simp [topologyText, inlineText]) (parseStanza_topology encodable.cpus _ _)]
  rfl

/-- The end of the processor stanza; the memory size stands there when it is not
the default. -/
theorem parseStanzas_closingLines (encodable : processor.Encodable) {before : Processor}
    (isDefault : before.memorySize = defaultMemorySize) (fuel : Nat) (rest : List (List Char))
    (pos : Nat) :
    ∃ pos', Parser.parseStanzas (fuel + 4) before ⟨closingLines processor ++ rest, pos⟩ =
      .ok ({ before with
        topology := processor.topology, memorySize := processor.memorySize }, ⟨rest, pos'⟩) := by
  have isClosing : closingLines processor ++ rest = memoryLines processor ++
      "  cache \x7b \x7d".toList :: ("  ".toList ++ topologyText processor) ::
        "\x7d".toList :: rest := by
    simp [closingLines]
  rw [isClosing, memoryLines]
  split
  · have isMemory : trim ("  ".toList ++ memoryText processor) = memoryText processor :=
      Text.trim_indent (solid_inlineText (.of_forall (by decide)) (by decide) _) (by decide)
    refine ⟨pos + 1 + 1 + 3, ?_⟩
    rw [List.cons_append, parseStanzas_blank, List.singleton_append,
      parseStanzas_line isMemory (by simp [memoryText, inlineText])
        (by simp [memoryText, inlineText]) (parseStanza_memory_of_lt encodable.memorySize _ _),
      parseStanzas_topology encodable]
  · rename_i notOther
    have same : processor.memorySize = before.memorySize := (not_not.mp notOther).trans isDefault.symm
    refine ⟨pos + 3, ?_⟩
    rw [List.nil_append, parseStanzas_topology encodable, same]

/-- The processor is read back from its stanza. -/
theorem parseStanzas_stanzaLines (encodable : processor.Encodable) (fuel : Nat)
    (rest : List (List Char)) (pos : Nat) :
    ∃ pos', Parser.parseStanzas (fuel + 7) Parser.initialProcessor
        ⟨stanzaLines processor ++ rest, pos⟩ = .ok (processor, ⟨rest, pos'⟩) := by
  have isHardware : trim "  hardware \x7b".toList = "hardware \x7b".toList := by decide
  have isLayout : trim "  layout slots \x7b".toList = "layout slots \x7b".toList := by decide
  obtain ⟨isWidth, readWidth⟩ := parseStanza_width encodable.width Parser.initialProcessor
    ⟨[] :: "  hardware \x7b".toList ::
      (processor.units.map unitLine ++ "  \x7d".toList :: [] :: "  layout slots \x7b".toList ::
        (layoutLines processor ++ [] :: (closingLines processor ++ rest))), pos + 1⟩
  obtain ⟨afterLayout, readLayout⟩ := parseStanza_layout encodable
    { Parser.initialProcessor with width := processor.width, units := processor.units }
    ([] :: (closingLines processor ++ rest))
    (pos + 1 + 1 + 1 + processor.units.length + 1 + 1 + 1)
  have isDefault : Processor.memorySize { Parser.initialProcessor with
      width := processor.width, units := processor.units,
      slotAliases := processor.slotAliases, slotUnits := processor.slotUnits } =
        defaultMemorySize := rfl
  obtain ⟨last, readClosing⟩ := parseStanzas_closingLines encodable isDefault fuel rest
    (afterLayout + 1)
  refine ⟨last, ?_⟩
  have isLines : stanzaLines processor ++ rest = widthLine processor :: [] ::
      "  hardware \x7b".toList :: (processor.units.map unitLine ++ "  \x7d".toList :: [] ::
        "  layout slots \x7b".toList ::
          (layoutLines processor ++ [] :: (closingLines processor ++ rest))) := by
    simp [stanzaLines]
  rw [isLines, parseStanzas_line isWidth (by simp) (by simp) readWidth, parseStanzas_blank,
    parseStanzas_line isHardware (by decide) (by decide) (parseStanza_hardware encodable _ _ _),
    parseStanzas_blank, parseStanzas_line isLayout (by decide) (by decide) readLayout,
    parseStanzas_blank, readClosing]

end

end VliwCompiler.Asm
