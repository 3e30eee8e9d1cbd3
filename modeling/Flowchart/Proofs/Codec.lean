import Flowchart.Codec.Node
import Flowchart.Proofs.Arguments
import Mathlib.Data.List.Nodup

/-!
The data of diagrams and types is read back from its JSON. A record is written as those of its fields
that say more than the fallback, and each field is found again under its name. Properties, nodes and
types hold others of their kind, so they are read back by induction on their structure, with the
depth of the JSON as the bound that the readers ask for. What is read back is equal to what was
written if keys are distinct and counts are within their bounds.
-/
namespace Flowchart

open List Json

variable {value : Json} {entries : List (Text × Property)} {fields : List (Text × Json)}

namespace Json

/-- The fields that are there, out of all fields of a record. -/
def present (slots : List (Text × Option Json)) : List (Text × Json) :=
  slots.flatMap fun slot => (slot.2.map (slot.1, ·)).toList

theorem fst_present_sublist (slots : List (Text × Option Json)) :
    ((present slots).map Prod.fst).Sublist (slots.map Prod.fst) := by
  induction slots with
  | nil => exact .slnil
  | cons slot slots ih =>
    obtain ⟨name, _ | value⟩ := slot
    · exact ih.cons _
    · exact ih.cons_cons _

variable {slots : List (Text × Option Json)}

theorem lookup_present (h : (slots.map Prod.fst).Nodup) (key : Text) :
    (present slots).lookup key = (slots.lookup key).join := by
  induction slots with
  | nil => rfl
  | cons slot slots ih =>
    obtain ⟨name, value⟩ := slot
    rw [map_cons, nodup_cons] at h
    by_cases hkey : key = name
    · subst hkey
      rw [lookup_cons_self]
      cases value with
      | none =>
        refine lookup_eq_none_iff.mpr fun field hfield => ?_
        have hmem := (fst_present_sublist slots).subset (mem_map_of_mem hfield)
        exact bne_iff_ne.mpr fun heq => h.1 (heq ▸ hmem)
      | some value => exact lookup_cons_self
    · have hne : (key == name) = false := beq_false_of_ne hkey
      rw [lookup_cons, hne, ← ih h.2]
      cases value with
      | none => rfl
      | some value =>
        change ((name, value) :: present slots).lookup key = _
        rw [lookup_cons, hne]

theorem mem_present {key : Text} (h : slots.lookup key = some (some value)) :
    (key, value) ∈ present slots := by
  obtain ⟨before, after, rfl, -⟩ := lookup_eq_some_iff.mp h
  exact mem_flatMap.mpr ⟨(key, some value), by simp, by simp⟩

theorem depth_le_fieldDepths {key : Text} (h : (key, value) ∈ fields) :
    value.depth ≤ fieldDepths fields := by
  induction fields with
  | nil => cases h
  | cons field fields ih =>
    rcases mem_cons.mp h with rfl | h
    · exact Nat.le_max_left _ _
    · exact Nat.le_trans (ih h) (Nat.le_max_right _ _)

theorem field_eq (name : Text) (value : Json) :
    field name value = ((some value).map (name, ·)).toList := rfl

theorem fieldOf_eq {α : Type} (name : Text) (write : α → Json) (value : Option α) :
    fieldOf name write value = ((value.map write).map (name, ·)).toList := by
  cases value <;> rfl

theorem fieldIf_eq (condition : Bool) (name : Text) (value : Json) :
    fieldIf condition name value =
      ((if condition then some value else none).map (name, ·)).toList := by
  cases condition <;> rfl

/-- The names of a record are distinct and those of all its fields, whether they are there or
not. -/
structure Slots (names : List Text) (slots : List (Text × Option Json)) : Prop where
  names_eq : slots.map Prod.fst = names
  nodup : names.Nodup

namespace Slots

variable {names : List Text} {slots : List (Text × Option Json)} {key : Text} {α β : Type} {b : β}
  {read : Json → Option α} {next : α → Option β}

/-! One step of reading a record, field after field. -/

theorem record?_eq (h : Slots names slots) :
    record? names (.object (present slots)) = some (present slots) := by
  have hsublist := fst_present_sublist slots
  rw [h.names_eq] at hsublist
  have hknown : (present slots).filter (fun field => names.contains field.1) = present slots :=
    filter_eq_self.mpr fun field hfield =>
      contains_iff_mem.mpr (hsublist.subset (mem_map_of_mem hfield))
  rw [record?, hknown, if_pos (hsublist.nodup h.nodup)]

theorem start (h : Slots names slots) {next : Record → Option β}
    (hnext : next (present slots) = some b) :
    (record? names (.object (present slots)) >>= next) = some b := by
  rw [h.record?_eq]
  exact hnext

theorem take (h : Slots names slots) {a : α} (hslot : slots.lookup key = some (some value))
    (hread : read value = some a) (hnext : next a = some b) :
    (Record.required (present slots) key read >>= next) = some b := by
  rw [Record.required, lookup_present (h.names_eq ▸ h.nodup), hslot]
  exact Option.bind_eq_some_iff.mpr ⟨a, hread, hnext⟩

/-- A field that is always there, although it need not be. -/
theorem takeGiven (h : Slots names slots) {fallback a : α}
    (hslot : slots.lookup key = some (some value)) (hread : read value = some a)
    (hnext : next a = some b) :
    (Record.optional (present slots) key fallback read >>= next) = some b := by
  rw [Record.optional, lookup_present (h.names_eq ▸ h.nodup), hslot]
  exact Option.bind_eq_some_iff.mpr ⟨a, hread, hnext⟩

/-- A field that is there when a condition holds. -/
theorem takeIf (h : Slots names slots) (a : α) {fallback : α} {condition : Bool}
    (hslot : slots.lookup key = some (if condition then some value else none))
    (hfalse : condition = false → fallback = a)
    (htrue : condition → (key, value) ∈ present slots → read value = some a)
    (hnext : next a = some b) :
    (Record.optional (present slots) key fallback read >>= next) = some b := by
  refine Option.bind_eq_some_iff.mpr ⟨a, ?_, hnext⟩
  rw [Record.optional, lookup_present (h.names_eq ▸ h.nodup), hslot]
  cases condition with
  | false => exact congrArg some (hfalse rfl)
  | true => exact htrue rfl (mem_present hslot)

/-- A condition itself. -/
theorem takeFlag (h : Slots names slots) {condition : Bool} {next : Bool → Option β}
    (hslot : slots.lookup key = some (if condition then some (.bool true) else none))
    (hnext : next condition = some b) :
    (Record.optional (present slots) key false bool? >>= next) = some b :=
  h.takeIf condition hslot Eq.symm (fun honly _ => congrArg some honly.symm) hnext

/-- A list that is there when it is not empty. -/
theorem takeList (h : Slots names slots) {items : List α} {read : Json → Option (List α)}
    {next : List α → Option β}
    (hslot : slots.lookup key = some (if !items.isEmpty then some value else none))
    (hread : (key, value) ∈ present slots → read value = some items) (hnext : next items = some b) :
    (Record.optional (present slots) key [] read >>= next) = some b :=
  h.takeIf items hslot
    (fun hnone => (List.isEmpty_iff.mp (by simpa using hnone)).symm) (fun _ => hread) hnext

/-- A field that is there when there is a value. -/
theorem takeOption (h : Slots names slots) {write : α → Json} {value : Option α}
    {read : Json → Option (Option α)} {next : Option α → Option β}
    (hslot : slots.lookup key = some (value.map write))
    (hread : ∀ a, value = some a → read (write a) = some (some a))
    (hnext : next value = some b) :
    (Record.optional (present slots) key none read >>= next) = some b := by
  refine Option.bind_eq_some_iff.mpr ⟨value, ?_, hnext⟩
  rw [Record.optional, lookup_present (h.names_eq ▸ h.nodup), hslot]
  cases value with
  | none => rfl
  | some a => exact hread a rfl

end Slots

/-! Numbers and lists -/

theorem natUpTo?_ofNat {limit n : Nat} (h : n ≤ limit) : natUpTo? limit (.ofNat n) = some n := by
  have hvalue : Text.decimalValue (Text.ofNat n) = n := Nat.ofDigitChars_ten_toDigits
  have hdigits : ∀ c ∈ Text.ofNat n, c.isDigit := fun _ =>
    Nat.isDigit_of_mem_toDigits (by decide) (by decide)
  rw [ofNat, natUpTo?, hvalue]
  exact if_pos ⟨all_eq_true.mpr hdigits, h⟩

theorem mapM_map_some {α β : Type} {write : α → β} {read : β → Option α} {items : List α}
    (h : ∀ a ∈ items, read (write a) = some a) : (items.map write).mapM read = some items := by
  induction items with
  | nil => rfl
  | cons a items ih =>
    obtain ⟨ha, hitems⟩ := forall_mem_cons.mp h
    rw [map_cons, mapM_cons, ha, ih hitems]
    rfl

end Json

namespace SourceRange

/-- The lines and columns are counts that can be written. -/
def isCounted (range : SourceRange) : Bool :=
  range.start.line ≤ Text.maxNatural && range.start.column ≤ Text.maxNatural &&
    (range.stop.line ≤ Text.maxNatural && range.stop.column ≤ Text.maxNatural)

theorem ofJson?_toJson {range : SourceRange} (h : range.isCounted) :
    ofJson? range.toJson = some range := by
  simp only [isCounted, Bool.and_eq_true, decide_eq_true_eq] at h
  obtain ⟨⟨hline, hcolumn⟩, hline', hcolumn'⟩ := h
  let slots : List (Text × Option Json) := [("file", some (.string range.file)),
    ("startLine", some (.ofNat range.start.line)), ("startCol", some (.ofNat range.start.column)),
    ("endLine", some (.ofNat range.stop.line)), ("endCol", some (.ofNat range.stop.column))]
  have hslots : Slots ["file", "startLine", "startCol", "endLine", "endCol"] slots :=
    ⟨rfl, by decide⟩
  refine hslots.start (hslots.take rfl rfl ?_)
  refine hslots.take rfl (natUpTo?_ofNat hline) ?_
  refine hslots.take rfl (natUpTo?_ofNat hcolumn) ?_
  refine hslots.take rfl (natUpTo?_ofNat hline') ?_
  exact hslots.take rfl (natUpTo?_ofNat hcolumn') rfl

end SourceRange

theorem Severity.ofJson?_toJson (severity : Severity) : ofJson? severity.toJson = some severity := by
  cases severity <;> decide

theorem ValueKind.ofJson?_toJson (kind : ValueKind) : ofJson? kind.toJson = some kind := by
  cases kind <;> decide

theorem NodeKind.ofJson?_toJson (kind : NodeKind) : ofJson? kind.toJson = some kind := by
  cases kind <;> decide

theorem Remark.ofJson?_toJson (remark : Remark) : ofJson? remark.toJson = some remark := by
  let slots : List (Text × Option Json) :=
    [("severity", some remark.severity.toJson), ("message", some (.string remark.message))]
  have hslots : Slots ["severity", "message"] slots := ⟨rfl, by decide⟩
  exact hslots.start (hslots.take rfl remark.severity.ofJson?_toJson (hslots.take rfl rfl rfl))

theorem Flags.ofJson?_toJson (flags : Flags) : ofJson? flags.toJson = some flags := by
  have hlt := flags.bits.toNat_lt
  rw [ofJson?, toJson, natUpTo?_ofNat (by omega)]
  simp

theorem Flags.eq_of_isEmpty {flags : Flags} (h : flags.isEmpty) : {} = flags :=
  congrArg Flags.mk (of_decide_eq_true h).symm

namespace Property

mutual

/-- The keys of nested properties are distinct on every level. -/
def isProper : Property → Bool
  | ⟨_, _, _, _, _, _, properties, _⟩ =>
    (properties.map Prod.fst).Nodup && areProper properties

def areProper : List (Text × Property) → Bool
  | [] => true
  | (_, property) :: rest => isProper property && areProper rest

end

/-- All fields of a property, with those left out that say no more than their fallback. -/
def slots (property : Property) : List (Text × Option Json) :=
  [("valueKind", some property.valueKind.toJson), ("value", some (.string property.value)),
    ("typeConstraint", property.typeConstraint.map .string),
    ("editable", some (.bool property.editable)),
    ("optional", if property.optional then some (.bool true) else none),
    ("placeholder", property.placeholder.map .string),
    ("properties", if !property.properties.isEmpty then
      some (.object (toJsonEntries property.properties)) else none),
    ("imports", if !property.imports.isEmpty then
      some (.ofList .string property.imports) else none)]

theorem toJson_eq (property : Property) : property.toJson = .object (present property.slots) := by
  cases property
  simp only [toJson, slots, present, field_eq, fieldOf_eq, fieldIf_eq,
    flatMap_cons, flatMap_nil, append_nil, append_assoc]

theorem slots_names (property : Property) : Slots ["valueKind", "value", "typeConstraint",
    "editable", "optional", "placeholder", "properties", "imports"] property.slots :=
  ⟨rfl, by decide⟩

theorem ofEntries_eq_self (h : (entries.map Prod.fst).Nodup) :
    Properties.ofEntries entries = entries :=
  Properties.insertAll_eq_append h fun _ _ => not_mem_nil

theorem toJsonEntries_eq (entries : List (Text × Property)) :
    toJsonEntries entries = entries.map fun entry => (entry.1, entry.2.toJson) := by
  induction entries with
  | nil => rw [toJsonEntries, map_nil]
  | cons entry entries ih => rw [toJsonEntries, ih, map_cons]

/-- Properties under distinct keys are read back if each of them is. -/
theorem entriesOfJson?_toJsonEntries {read : Json → Option Property}
    (hkeys : (entries.map Prod.fst).Nodup)
    (h : ∀ entry ∈ entries, read entry.2.toJson = some entry.2) :
    entriesOfJson? read (.object (toJsonEntries entries)) = some entries := by
  have hread : (toJsonEntries entries).mapM
      (fun field => (read field.2).map fun property => (field.1, property)) = some entries := by
    rw [toJsonEntries_eq]
    exact mapM_map_some fun entry hentry => by rw [h entry hentry]; rfl
  rw [entriesOfJson?, hread]
  exact congrArg some (ofEntries_eq_self hkeys)

mutual

/-- A property is read back from its JSON. -/
theorem ofJsonWithin?_toJson : ∀ (property : Property) (depth : Nat), property.isProper →
    property.toJson.depth ≤ depth → ofJsonWithin? depth property.toJson = some property
  | ⟨valueKind, value, typeConstraint, editable, optional, placeholder, properties, imports⟩, depth,
      hproper, hdepth => by
    let property : Property :=
      ⟨valueKind, value, typeConstraint, editable, optional, placeholder, properties, imports⟩
    rw [isProper, Bool.and_eq_true, decide_eq_true_eq] at hproper
    change property.toJson.depth ≤ depth at hdepth
    rw [toJson_eq, Json.depth] at hdepth
    obtain ⟨less, rfl⟩ : ∃ less, depth = less + 1 := ⟨depth - 1, by omega⟩
    have hslots := property.slots_names
    rw [toJson_eq]
    refine hslots.start (hslots.take rfl valueKind.ofJson?_toJson (hslots.take rfl rfl ?_))
    refine hslots.takeOption rfl (fun _ _ => rfl) (hslots.takeGiven rfl rfl ?_)
    refine hslots.takeFlag rfl (hslots.takeOption rfl (fun _ _ => rfl) ?_)
    refine hslots.takeList rfl (fun hmem => ?_)
      (hslots.takeList rfl (fun _ => mapM_map_some fun _ _ => rfl) rfl)
    · have hle : Json.fieldDepths (toJsonEntries properties) + 1 ≤ _ :=
        depth_le_fieldDepths hmem
      exact entriesOfJson?_toJsonEntries hproper.1
        (ofJsonWithin?_entries properties less hproper.2 (by omega))

theorem ofJsonWithin?_entries : ∀ (entries : List (Text × Property)) (depth : Nat),
    areProper entries → Json.fieldDepths (toJsonEntries entries) ≤ depth →
      ∀ entry ∈ entries, ofJsonWithin? depth entry.2.toJson = some entry.2
  | [], _, _, _, _, hentry => by cases hentry
  | (key, property) :: rest, depth, hproper, hdepth, entry, hentry => by
    rw [areProper, Bool.and_eq_true] at hproper
    rw [toJsonEntries, Json.fieldDepths] at hdepth
    rcases mem_cons.mp hentry with rfl | hentry
    · exact ofJsonWithin?_toJson property depth hproper.1 (by omega)
    · exact ofJsonWithin?_entries rest depth hproper.2 (by omega) entry hentry

end

theorem isProper_of_mem (h : areProper entries) {entry : Text × Property}
    (hentry : entry ∈ entries) : entry.2.isProper := by
  induction entries with
  | nil => cases hentry
  | cons first rest ih =>
    rw [areProper, Bool.and_eq_true] at h
    rcases mem_cons.mp hentry with rfl | hentry
    · exact h.1
    · exact ih h.2 hentry

end Property

namespace Properties

/-- The keys are distinct, on every level. -/
def isProper (properties : Properties) : Bool :=
  (properties.map Prod.fst).Nodup && Property.areProper properties

theorem ofJson?_toJson {properties : Properties} (h : properties.isProper) :
    ofJson? properties.toJson = some properties := by
  rw [isProper, Bool.and_eq_true, decide_eq_true_eq] at h
  refine Property.entriesOfJson?_toJsonEntries h.1 fun entry hentry => ?_
  exact Property.ofJsonWithin?_toJson entry.2 _ (Property.isProper_of_mem h.2 hentry) (Nat.le_refl _)

end Properties

namespace Node

mutual

/-- The ranges of a node and of those below it can be written, and the keys of its properties are
distinct. -/
def isProper : Node → Bool
  | ⟨_, _, _, range, _, properties, children, branches, _, _, _, _⟩ =>
    range.all SourceRange.isCounted && Properties.isProper properties &&
      (areProper children && areProper branches)

def areProper : List Node → Bool
  | [] => true
  | node :: rest => isProper node && areProper rest

end

/-- All fields of a node, with those left out that say no more than their fallback. -/
def slots (node : Node) : List (Text × Option Json) :=
  [("id", some (.string node.id)), ("kind", some node.kind.toJson),
    ("label", some (.string node.label)),
    ("sourceRange", some (.ofOption SourceRange.toJson node.range)),
    ("sourceCode", if !node.source.isEmpty then some (.string node.source) else none),
    ("properties", some (Properties.toJson node.properties)),
    ("children", if !node.children.isEmpty then some (.array (toJsonEach node.children)) else none),
    ("branches", if !node.branches.isEmpty then some (.array (toJsonEach node.branches)) else none),
    ("diagnostics", if !node.remarks.isEmpty then
      some (.ofList Remark.toJson node.remarks) else none),
    ("suggested", node.suggested.map .bool),
    ("returning", if node.returning then some (.bool true) else none),
    ("flags", if !node.flags.isEmpty then some node.flags.toJson else none)]

theorem toJson_eq (node : Node) : node.toJson = .object (present node.slots) := by
  cases node
  simp only [toJson, slots, present, field_eq, fieldOf_eq, fieldIf_eq,
    flatMap_cons, flatMap_nil, append_nil, append_assoc]

theorem slots_names (node : Node) : Slots ["id", "kind", "label", "sourceRange", "sourceCode",
    "properties", "children", "branches", "diagnostics", "suggested", "returning", "flags"]
      node.slots :=
  ⟨rfl, by decide⟩

mutual

/-- A node is read back from its JSON. -/
theorem ofJsonWithin?_toJson : ∀ (node : Node) (depth : Nat), node.isProper →
    node.toJson.depth ≤ depth → ofJsonWithin? depth node.toJson = some node
  | ⟨id, kind, label, range, source, properties, children, branches, remarks, suggested, returning,
      flags⟩, depth, hproper, hdepth => by
    let node : Node := ⟨id, kind, label, range, source, properties, children, branches, remarks,
      suggested, returning, flags⟩
    simp only [isProper, Bool.and_eq_true] at hproper
    obtain ⟨⟨hrange, hproperties⟩, hchildren, hbranches⟩ := hproper
    change node.toJson.depth ≤ depth at hdepth
    rw [toJson_eq, Json.depth] at hdepth
    obtain ⟨less, rfl⟩ : ∃ less, depth = less + 1 := ⟨depth - 1, by omega⟩
    have hslots := node.slots_names
    rw [toJson_eq]
    refine hslots.start (hslots.take rfl rfl (hslots.take rfl kind.ofJson?_toJson ?_))
    refine hslots.take rfl rfl (hslots.takeGiven rfl (a := range) ?_ ?_)
    · cases range with
      | none => rfl
      | some range => exact congrArg (Option.map some) (SourceRange.ofJson?_toJson hrange)
    refine hslots.takeList rfl (fun _ => rfl) ?_
    refine hslots.takeGiven rfl (Properties.ofJson?_toJson hproperties) ?_
    refine hslots.takeList rfl (fun hmem => ?_) (hslots.takeList rfl (fun hmem => ?_) ?_)
    · exact ofJsonWithin?_each children less hchildren (by
        have hle : Json.depths (toJsonEach children) + 1 ≤ _ := depth_le_fieldDepths hmem
        omega)
    · exact ofJsonWithin?_each branches less hbranches (by
        have hle : Json.depths (toJsonEach branches) + 1 ≤ _ := depth_le_fieldDepths hmem
        omega)
    refine hslots.takeList rfl
      (fun _ => mapM_map_some fun remark _ => remark.ofJson?_toJson) ?_
    refine hslots.takeOption rfl (fun _ _ => rfl) (hslots.takeFlag rfl ?_)
    exact hslots.takeIf flags rfl (fun hnone => Flags.eq_of_isEmpty (by simpa using hnone))
      (fun _ _ => flags.ofJson?_toJson) rfl

theorem ofJsonWithin?_each : ∀ (nodes : List Node) (depth : Nat), areProper nodes →
    Json.depths (toJsonEach nodes) ≤ depth →
      (toJsonEach nodes).mapM (ofJsonWithin? depth) = some nodes
  | [], _, _, _ => by
    rfl
  | node :: rest, depth, hproper, hdepth => by
    rw [areProper, Bool.and_eq_true] at hproper
    rw [toJsonEach, Json.depths] at hdepth
    rw [toJsonEach, mapM_cons, ofJsonWithin?_toJson node depth hproper.1 (by omega),
      ofJsonWithin?_each rest depth hproper.2 (by omega)]
    rfl

end

theorem isProper_of_mem {nodes : List Node} (h : areProper nodes) {node : Node}
    (hnode : node ∈ nodes) : node.isProper := by
  induction nodes with
  | nil => cases hnode
  | cons first rest ih =>
    rw [areProper, Bool.and_eq_true] at h
    rcases mem_cons.mp hnode with rfl | hnode
    · exact h.1
    · exact ih h.2 hnode

end Node

namespace Diagram

def isProper (diagram : Diagram) : Bool := Node.areProper diagram.nodes

def slots (diagram : Diagram) : List (Text × Option Json) :=
  [("fileName", some (.string diagram.file)), ("functionName", diagram.function.map .string),
    ("nodes", some (.ofList Node.toJson diagram.nodes)),
    ("hasReturn", some (.bool diagram.hasReturn))]

theorem toJson_eq (diagram : Diagram) : diagram.toJson = .object (present diagram.slots) := by
  simp only [toJson, slots, present, field_eq, fieldOf_eq,
    flatMap_cons, flatMap_nil, append_nil, append_assoc]

theorem slots_names (diagram : Diagram) :
    Slots ["fileName", "functionName", "nodes", "hasReturn"] diagram.slots :=
  ⟨rfl, by decide⟩

/-- A diagram is read back from its JSON. -/
theorem ofJson?_toJson {diagram : Diagram} (h : diagram.isProper) :
    ofJson? diagram.toJson = some diagram := by
  have hslots := diagram.slots_names
  rw [toJson_eq]
  refine hslots.start (hslots.take rfl rfl (hslots.takeOption rfl (fun _ _ => rfl) ?_))
  refine hslots.take rfl (mapM_map_some fun node hnode => ?_) (hslots.take rfl rfl rfl)
  exact Node.ofJsonWithin?_toJson node _ (Node.isProper_of_mem h hnode) (Nat.le_refl _)

end Diagram

namespace ModuleName

theorem ofJson?_toJson (module : ModuleName) : ofJson? module.toJson = some module := by
  let slots : List (Text × Option Json) :=
    [("org", some (.string module.org)), ("name", some (.string module.name))]
  have hslots : Slots ["org", "name"] slots := ⟨rfl, by decide⟩
  exact hslots.start (hslots.take rfl rfl (hslots.take rfl rfl rfl))

end ModuleName

namespace TypeDesc

mutual

/-- The sizes of arrays are counts that can be written. -/
def isCounted : TypeDesc → Bool
  | array element size => isCounted element && size.all (· ≤ Text.maxNatural)
  | map value | stream value | optional value => isCounted value
  | union members | tuple members => areCounted members
  | function params returns => haveCounted params && isCounted returns
  | basic _ | error _ _ | named _ _ => true

def areCounted : List TypeDesc → Bool
  | [] => true
  | type :: rest => isCounted type && areCounted rest

def haveCounted : List (Parameter TypeDesc) → Bool
  | [] => true
  | ⟨_, type, _⟩ :: rest => isCounted type && haveCounted rest

end

/-- All fields of a type beside its tag. -/
def slots : TypeDesc → List (Text × Option Json)
  | basic _ => []
  | error module name => [("module", module.map ModuleName.toJson), ("name", name.map .string)]
  | named module name =>
    [("module", module.map ModuleName.toJson), ("name", some (.string name))]
  | array element size => [("element", some (toJson element)), ("size", size.map .ofNat)]
  | map value | stream value => [("value", some (toJson value))]
  | optional inner => [("inner", some (toJson inner))]
  | union members | tuple members => [("members", some (.array (toJsonEach members)))]
  | function params returns =>
    [("params", some (.array (toJsonParams params))), ("returns", some (toJson returns))]

/-- The tag of a type. -/
def tag : TypeDesc → Text
  | basic type => type.kindName
  | error _ _ => "error"
  | named _ _ => "named"
  | array _ _ => "array"
  | map _ => "map"
  | stream _ => "stream"
  | optional _ => "optional"
  | union _ => "union"
  | tuple _ => "tuple"
  | function _ _ => "function"

theorem toJson_eq (type : TypeDesc) : type.toJson = tagged type.tag (present type.slots) := by
  cases type with
  | error module name => cases module <;> cases name <;> rw [toJson] <;> rfl
  | named module name => cases module <;> rw [toJson] <;> rfl
  | array element size => cases size <;> rw [toJson] <;> rfl
  | _ => rw [toJson]; rfl

theorem untagged?_tagged (nested : Bool) {kind : Text} (h : ("kind" : Text) ∉ fields.map Prod.fst) :
    untagged? nested (tagged kind fields) = some (kind, .object fields) := by
  have hrest : ∀ field ∈ fields, (field.1 == "kind") = false := fun field hfield =>
    beq_false_of_ne fun heq => h (heq ▸ mem_map_of_mem hfield)
  have hnone : fields.filter (fun field => field.1 == ("kind" : Text)) = [] :=
    filter_eq_nil_iff.mpr fun field hfield => ne_true_of_eq_false (hrest field hfield)
  have hall : fields.filter (not ∘ fun field => field.1 == ("kind" : Text)) = fields :=
    filter_eq_self.mpr fun field hfield => congrArg not (hrest field hfield)
  rw [tagged, untagged?, partition_eq_filter_filter, filter_cons_of_pos rfl,
    filter_cons_of_neg Bool.false_ne_true, hnone, hall]
  rfl

/-- The tag stands beside the fields of a type, not among them. -/
theorem untagged?_toJson (nested : Bool) {type : TypeDesc} (kind : Text) (h : type.tag = kind) :
    untagged? nested type.toJson = some (kind, .object (present type.slots)) := by
  have hslots : ("kind" : Text) ∉ type.slots.map Prod.fst := by
    cases type <;> exact of_decide_eq_true rfl
  rw [toJson_eq, h]
  exact untagged?_tagged nested fun hmem => hslots ((fst_present_sublist _).subset hmem)

theorem paramOfJson?_toJson {read : Json → Option TypeDesc} (param : Parameter TypeDesc)
    (h : read param.type.toJson = some param.type) :
    paramOfJson? read param.toJson = some param := by
  let slots : List (Text × Option Json) := [("name", some (.string param.name)),
    ("type", some param.type.toJson), ("defaultable", some (.bool param.defaultable))]
  have hslots : Slots ["name", "type", "defaultable"] slots := ⟨rfl, by decide⟩
  exact hslots.start (hslots.take rfl rfl (hslots.take rfl h (hslots.takeGiven rfl rfl rfl)))

/-- The JSON of a field of a type is less deep than that of the type. -/
theorem slot_depth_le {type : TypeDesc} {depth : Nat} (key : Text)
    (hdepth : type.toJson.depth ≤ depth + 1) (h : type.slots.lookup key = some (some value)) :
    value.depth ≤ depth := by
  have hle := depth_le_fieldDepths (mem_present h)
  rw [toJson_eq, tagged, Json.depth, Json.fieldDepths] at hdepth
  omega

mutual

theorem ofJsonWithin?_succ_toJson : ∀ (type : TypeDesc) (nested : Bool) (depth : Nat),
    type.isCounted → type.toJson.depth ≤ depth + 1 →
      ofJsonWithin? nested (depth + 1) type.toJson = some type
  | .basic type, nested, depth, hcounted, hdepth => by
    cases type <;> rfl
  | .error module name, nested, depth, hcounted, hdepth => by
    have hslots : Slots ["module", "name"] (slots (.error module name)) := ⟨rfl, by decide⟩
    rw [ofJsonWithin?, untagged?_toJson nested "error" rfl]
    refine hslots.start (hslots.takeOption rfl (fun module _ => ?_) ?_)
    · exact congrArg (Option.map some) module.ofJson?_toJson
    · exact hslots.takeOption rfl (fun _ _ => rfl) rfl
  | .named module name, nested, depth, hcounted, hdepth => by
    have hslots : Slots ["module", "name"] (slots (.named module name)) := ⟨rfl, by decide⟩
    rw [ofJsonWithin?, untagged?_toJson nested "named" rfl]
    refine hslots.start (hslots.takeOption rfl (fun module _ => ?_) (hslots.take rfl rfl rfl))
    exact congrArg (Option.map some) module.ofJson?_toJson
  | .array element size, nested, depth, hcounted, hdepth => by
    rw [isCounted, Bool.and_eq_true] at hcounted
    have hslots : Slots ["element", "size"] (slots (.array element size)) := ⟨rfl, by decide⟩
    rw [ofJsonWithin?, untagged?_toJson nested "array" rfl]
    refine hslots.start (hslots.take rfl (ofJsonWithin?_toJson element true depth hcounted.1 ?_) ?_)
    · exact slot_depth_le "element" hdepth rfl
    · refine hslots.takeOption rfl (fun n hn => ?_) rfl
      have hle : n ≤ Text.maxNatural := by simpa [hn] using hcounted.2
      exact congrArg (Option.map some) (natUpTo?_ofNat hle)
  | .map value, nested, depth, hcounted, hdepth => by
    have hslots : Slots ["value"] (slots (.map value)) := ⟨rfl, by decide⟩
    rw [ofJsonWithin?, untagged?_toJson nested "map" rfl]
    dsimp only [Option.bind_eq_bind, Option.bind_some]
    iterate 3 refine (if_neg (by decide)).trans ?_
    refine (if_pos rfl).trans ?_
    refine hslots.start (hslots.take rfl ?_ rfl)
    exact ofJsonWithin?_toJson value true depth hcounted (slot_depth_le "value" hdepth rfl)
  | .stream value, nested, depth, hcounted, hdepth => by
    have hslots : Slots ["value"] (slots (.stream value)) := ⟨rfl, by decide⟩
    rw [ofJsonWithin?, untagged?_toJson nested "stream" rfl]
    dsimp only [Option.bind_eq_bind, Option.bind_some]
    iterate 4 refine (if_neg (by decide)).trans ?_
    refine (if_pos rfl).trans ?_
    refine hslots.start (hslots.take rfl ?_ rfl)
    exact ofJsonWithin?_toJson value true depth hcounted (slot_depth_le "value" hdepth rfl)
  | .optional inner, nested, depth, hcounted, hdepth => by
    have hslots : Slots ["inner"] (slots (.optional inner)) := ⟨rfl, by decide⟩
    rw [ofJsonWithin?, untagged?_toJson nested "optional" rfl]
    dsimp only [Option.bind_eq_bind, Option.bind_some]
    iterate 5 refine (if_neg (by decide)).trans ?_
    refine (if_pos rfl).trans ?_
    refine hslots.start (hslots.take rfl ?_ rfl)
    exact ofJsonWithin?_toJson inner true depth hcounted (slot_depth_le "inner" hdepth rfl)
  | .union members, nested, depth, hcounted, hdepth => by
    have hslots : Slots ["members"] (slots (.union members)) := ⟨rfl, by decide⟩
    rw [ofJsonWithin?, untagged?_toJson nested "union" rfl]
    dsimp only [Option.bind_eq_bind, Option.bind_some]
    iterate 6 refine (if_neg (by decide)).trans ?_
    refine (if_pos rfl).trans ?_
    refine hslots.start (hslots.take rfl ?_ rfl)
    exact ofJsonWithin?_each members depth hcounted (slot_depth_le "members" hdepth rfl)
  | .tuple members, nested, depth, hcounted, hdepth => by
    have hslots : Slots ["members"] (slots (.tuple members)) := ⟨rfl, by decide⟩
    rw [ofJsonWithin?, untagged?_toJson nested "tuple" rfl]
    dsimp only [Option.bind_eq_bind, Option.bind_some]
    iterate 7 refine (if_neg (by decide)).trans ?_
    refine (if_pos rfl).trans ?_
    refine hslots.start (hslots.take rfl ?_ rfl)
    exact ofJsonWithin?_each members depth hcounted (slot_depth_le "members" hdepth rfl)
  | .function params returns, nested, depth, hcounted, hdepth => by
    rw [isCounted, Bool.and_eq_true] at hcounted
    have hslots : Slots ["params", "returns"] (slots (.function params returns)) :=
      ⟨rfl, by decide⟩
    rw [ofJsonWithin?, untagged?_toJson nested "function" rfl]
    dsimp only [Option.bind_eq_bind, Option.bind_some]
    iterate 8 refine (if_neg (by decide)).trans ?_
    refine (if_pos rfl).trans ?_
    refine hslots.start ?_
    refine hslots.take rfl ?_ (hslots.take rfl ?_ rfl)
    · exact paramOfJson?_each params depth hcounted.1 (slot_depth_le "params" hdepth rfl)
    · exact ofJsonWithin?_toJson returns true depth hcounted.2 (slot_depth_le "returns" hdepth rfl)

/-- A type is read back from its JSON. -/
theorem ofJsonWithin?_toJson (type : TypeDesc) (nested : Bool) (depth : Nat)
    (hcounted : type.isCounted) (hdepth : type.toJson.depth ≤ depth) :
    ofJsonWithin? nested depth type.toJson = some type := by
  have hdepth' := hdepth
  rw [toJson_eq, tagged, Json.depth] at hdepth'
  obtain ⟨less, rfl⟩ : ∃ less, depth = less + 1 := ⟨depth - 1, by omega⟩
  exact ofJsonWithin?_succ_toJson type nested less hcounted hdepth

theorem ofJsonWithin?_each : ∀ (types : List TypeDesc) (depth : Nat), areCounted types →
    Json.depth (.array (toJsonEach types)) ≤ depth →
      list? (ofJsonWithin? true depth) (.array (toJsonEach types)) = some types
  | [], _, _, _ => by rw [toJsonEach]; rfl
  | type :: types, depth, hcounted, hdepth => by
    rw [areCounted, Bool.and_eq_true] at hcounted
    rw [toJsonEach, Json.depth, Json.depths] at hdepth
    have htype := ofJsonWithin?_toJson type true depth hcounted.1 (by omega)
    have htypes := ofJsonWithin?_each types depth hcounted.2 (by rw [Json.depth]; omega)
    rw [list?] at htypes
    rw [toJsonEach, list?, mapM_cons, htype, htypes]
    rfl

theorem paramOfJson?_each : ∀ (params : List (Parameter TypeDesc)) (depth : Nat),
    haveCounted params → Json.depth (.array (toJsonParams params)) ≤ depth →
      list? (paramOfJson? (ofJsonWithin? true depth)) (.array (toJsonParams params)) =
        some params
  | [], _, _, _ => by rw [toJsonParams]; rfl
  | ⟨name, type, defaultable⟩ :: params, depth, hcounted, hdepth => by
    rw [haveCounted, Bool.and_eq_true] at hcounted
    rw [toJsonParams, Json.depth, Json.depths, Json.depth] at hdepth
    simp only [Json.fieldDepths] at hdepth
    have htype := ofJsonWithin?_toJson type true depth hcounted.1 (by omega)
    have hparam := paramOfJson?_toJson ⟨name, type, defaultable⟩ htype
    have hparams := paramOfJson?_each params depth hcounted.2 (by rw [Json.depth]; omega)
    rw [list?] at hparams
    rw [Parameter.toJson] at hparam
    rw [toJsonParams, list?, mapM_cons, hparam, hparams]
    rfl

end

end TypeDesc

end Flowchart
