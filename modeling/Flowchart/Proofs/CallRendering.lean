import Flowchart.Proofs.Arguments
import Flowchart.Proofs.PlainRendering

/-!
The text of a call. What is rendered from the node of a call is the check around it, what it invokes,
and its arguments with commas between them.
-/
namespace Flowchart

open List Render Text Properties Script

variable {script : Script} {isNamed : Bool} {key word : Text} {current : Option ModuleName} {a :
  Properties} {params : List (Parameter TypeDesc)}

namespace Script

theorem word_glued (h : script.glued) (text : Text) :
    script.word text = ⟨script.text ++ text, false⟩ := by
  unfold word
  rw [h]
  rfl

theorem word_apart {script : Script} (h : script.glued = false) (hgap : script.atGap = false)
    (text : Text) : script.word text = ⟨script.text ++ (' ' :: text), false⟩ := by
  unfold word
  rw [h, hgap]
  rfl

theorem glued_word (script : Script) (text : Text) : (script.word text).glued = false := by
  unfold word
  split <;> rfl

theorem glued_trimmed (script : Script) (text : Text) : (script.trimmed text).glued = false :=
  glued_word ..

end Script

namespace Render

open Call (Given)

/-- The arguments that properties are written as. -/
def pieces (isNamed : Bool) : Properties → List Given
  | [] => []
  | (key, property) :: rest =>
    if property.isBlank then pieces true rest
    else (if isNamed then some key else none, property.value) :: pieces isNamed rest

def pieceText : Given → Text
  | (none, value) => trim value
  | (some name, value) => trim name ++ " = " ++ trim value

def listed : Bool → List Given → Text
  | _, [] => []
  | isFirst, piece :: rest => (if isFirst then [] else ", ") ++ pieceText piece ++ listed false rest

/-- A property that is not one of the structure of a call. -/
def isArgument (entry : Text × Property) : Bool := !Key.callStructure.contains entry.1

theorem arguments_filter (node : Node) (isFirst isNamed : Bool) (script : Script)
    (properties : Properties) : arguments node isFirst isNamed script properties =
      arguments node isFirst isNamed script (properties.filter isArgument) := by
  induction properties generalizing isFirst isNamed script with
  | nil => rfl
  | cons entry properties ih =>
    cases hkey : Key.callStructure.contains entry.1 with
    | true =>
      rw [filter_cons_of_neg (by rw [isArgument, hkey]; decide), arguments, if_pos hkey, ih]
    | false =>
      rw [filter_cons_of_pos (by rw [isArgument, hkey]; rfl)]
      simp only [arguments, ih]

theorem atGap_trim (front : Text) {text : Text} (hscript : script.text = front ++ trim text)
    (h : trim text ≠ []) : script.atGap = false := by
  obtain ⟨c, hlast, hblank⟩ := getLast?_trim h
  unfold atGap
  rw [hscript, getLast?_append, hlast, Option.some_or, Option.all_some, Bool.or_eq_false_iff]
  refine ⟨?_, ?_⟩ <;> refine beq_eq_false_iff_ne.mpr ?_ <;> rintro rfl <;> cases hblank

/-- Writing an argument after a script that it sticks to, or after a comma. -/
theorem trimmed_named (value : Text) (hkey : isNamed → trim key ≠ []) (lead : Text)
    (hlead : ∀ text, script.word text = ⟨script.text ++ (lead ++ text), false⟩) :
    ((if isNamed then (script.trimmed key).word "=" else script).trimmed value).text =
      script.text ++ (lead ++ pieceText (if isNamed then some key else none, value)) := by
  cases isNamed with
  | false =>
    unfold trimmed
    rw [if_neg Bool.false_ne_true, hlead]
    rfl
  | true =>
    have hgap : (⟨script.text ++ lead ++ trim key, false⟩ : Script).atGap = false :=
      atGap_trim _ rfl (hkey rfl)
    unfold trimmed
    rw [hlead, ← append_assoc, word_apart rfl hgap]
    have hequals : (⟨script.text ++ lead ++ trim key ++ " =", false⟩ : Script).atGap =
        false := by
      unfold atGap
      rw [getLast?_append]
      rfl
    refine (congrArg text (word_apart rfl hequals _)).trans ?_
    simp [pieceText]

/-- Properties of arguments are written one after the other, with commas between them. -/
theorem arguments_eq (node : Node) {isFirst isNamed : Bool} {script : Script}
    {properties : Properties}
    (hfree : ∀ key ∈ properties.map Prod.fst, Key.callStructure.contains key = false)
    (hblank : ∀ entry ∈ properties, entry.2.isBlank → entry.2.optional)
    (hnames : ∀ piece ∈ pieces isNamed properties, ∀ name, piece.1 = some name →
      trim name ≠ [])
    (hglued : script.glued = isFirst) (hgap : isFirst = false → script.atGap = false) :
    ∃ after, arguments node isFirst isNamed script properties = .ok after ∧
      after.text = script.text ++ listed isFirst (pieces isNamed properties) := by
  induction properties generalizing isFirst isNamed script with
  | nil => exact ⟨script, rfl, (append_nil _).symm⟩
  | cons entry properties ih =>
    obtain ⟨key, property⟩ := entry
    have hkey : Key.callStructure.contains key = false := hfree key mem_cons_self
    replace hfree := fun other hother => hfree other (mem_cons_of_mem _ hother)
    have hoptional := hblank (key, property) mem_cons_self
    replace hblank := fun other hother => hblank other (mem_cons_of_mem _ hother)
    rw [arguments, if_neg (by rw [hkey]; exact Bool.false_ne_true)]
    rw [pieces] at hnames ⊢
    cases hvalue : property.isBlank with
    | true =>
      rw [hvalue] at hnames
      rw [if_pos rfl, if_pos (hoptional hvalue)]
      exact ih hfree hblank hnames hglued hgap
    | false =>
      rw [hvalue] at hnames
      have hname : isNamed → trim key ≠ [] := fun h =>
        hnames _ mem_cons_self key (if_pos h)
      have htrim : trim property.value ≠ [] := by
        exact isEmpty_eq_false_iff.mp hvalue
      obtain ⟨front, hfront⟩ : ∃ front, pieceText (if isNamed then some key else none,
          property.value) = front ++ trim property.value := by
        cases isNamed with
        | false => exact ⟨[], rfl⟩
        | true => exact ⟨_, rfl⟩
      cases isFirst with
      | true =>
        have htext := trimmed_named property.value hname [] (word_glued hglued)
        obtain ⟨after, hafter, hlisted⟩ := ih hfree hblank
          (fun piece hpiece => hnames piece (mem_cons_of_mem _ hpiece)) (glued_trimmed _ _)
          fun _ => atGap_trim _ (htext.trans (by rw [hfront, nil_append, ← append_assoc]))
            htrim
        refine ⟨after, hafter, ?_⟩
        rw [hlisted, htext]
        simp [listed]
      | false =>
        have hclosed : (script.close ",").atGap = false := by
          unfold atGap close
          rw [getLast?_append]
          rfl
        have htext := trimmed_named property.value hname " " (word_apart rfl hclosed)
        obtain ⟨after, hafter, hlisted⟩ := ih hfree hblank
          (fun piece hpiece => hnames piece (mem_cons_of_mem _ hpiece)) (glued_trimmed _ _)
          fun _ => atGap_trim _ (htext.trans (by
            rw [hfront, ← append_assoc, ← append_assoc])) htrim
        refine ⟨after, hafter, ?_⟩
        rw [hlisted, htext]
        simp [listed, close]

theorem pieces_parameters {bound : List (Parameter TypeDesc × Option Text)}
    (h : ∀ item ∈ bound, ∀ value, item.2 = some value → trim value ≠ []) (rest : Properties) :
    pieces isNamed (bound.filterMap (Call.parameterEntry current) ++ rest) =
      Call.writtenFrom isNamed bound ++ pieces (isNamed || Call.skips bound) rest := by
  induction bound generalizing isNamed with
  | nil => rw [Call.skips, any_nil, Bool.or_false]; rfl
  | cons item bound ih =>
    replace ih := fun isNamed => @ih isNamed fun other hother => h other (mem_cons_of_mem _ hother)
    obtain ⟨param, _ | value⟩ := item
    · have hskips : Call.skips ((param, none) :: bound) = (param.defaultable && true || Call.skips bound) :=
        rfl
      rw [Call.writtenFrom, hskips]
      cases hdefault : param.defaultable with
      | true =>
        have hentry : Call.parameterEntry current (param, none) =
            some (param.name, Template.parameterProperty current param []) := if_pos hdefault
        have hblank : (Template.parameterProperty current param []).isBlank := rfl
        rw [filterMap_cons_some hentry, cons_append, pieces, if_pos hblank, ih]
        simp
      | false =>
        have hentry : Call.parameterEntry current (param, none) = none :=
          if_neg (by rw [hdefault]; exact Bool.false_ne_true)
        rw [filterMap_cons_none hentry, ih]
        simp
    · have hblank : (Template.parameterProperty current param value).isBlank = false :=
        isEmpty_eq_false_iff.mpr (h _ mem_cons_self value rfl)
      have hentry : Call.parameterEntry current (param, some value) =
          some (param.name, Template.parameterProperty current param value) := rfl
      have hskips : Call.skips ((param, some value) :: bound) =
          (param.defaultable && false || Call.skips bound) := rfl
      rw [filterMap_cons_some hentry, cons_append, pieces,
        if_neg (by rw [hblank]; exact Bool.false_ne_true), ih, hskips,
        Bool.and_false]
      rfl

theorem pieces_values {α : Type} {items : List α} {key value : α → Text}
    (h : ∀ item ∈ items, trim (value item) ≠ []) (rest : Properties) :
    pieces isNamed (items.map (fun item => (key item, .ofExpression (value item))) ++ rest) =
      items.map (fun item => (if isNamed then some (key item) else none, value item)) ++
        pieces isNamed rest := by
  induction items with
  | nil => rfl
  | cons item items ih =>
    have hblank : (Property.ofExpression (value item)).isBlank = false :=
      isEmpty_eq_false_iff.mpr (h item mem_cons_self)
    rw [map_cons, cons_append, pieces, if_neg (by rw [hblank]; exact Bool.false_ne_true),
      ih fun other hother => h other (mem_cons_of_mem _ hother)]
    rfl

open Call in
theorem pieces_entries {given : List Given} (h : ∀ piece ∈ given, trim piece.2 ≠ []) :
    pieces false (entries current params given) = written params given := by
  unfold entries written extraEntries strangerEntries
  rw [pieces_parameters, pieces_values, ← append_nil (List.map _ (strangers params given)),
    pieces_values, Bool.false_or]
  · simp [pieces]
  · intro arg harg
    exact h _ (mem_of_byName (mem_filter.mp harg).1)
  · intro item hitem
    refine h _ (mem_of_byPlace ?_)
    rw [← zipIdx_map_fst 0 (byPlace given)]
    exact mem_map_of_mem (mem_of_mem_drop hitem)
  · intro item hitem value hvalue
    obtain ⟨place, hplace⟩ := getElem?_of_mem hitem
    rcases assigned_cases ((assigned_of_getElem? hplace).trans hvalue) with ⟨-, hmem⟩ | hmem
    · exact h _ hmem
    · exact h _ hmem

end Render

namespace Text

theorem trim_eq_self {text : Text} (hfirst : text.head?.all (!isBlank ·))
    (hlast : text.getLast?.all (!isBlank ·)) : trim text = text := by
  have hdrop {other : Text} (h : other.head?.all (!isBlank ·)) :
      other.dropWhile isBlank = other := by
    cases other with
    | nil => rfl
    | cons c other =>
      rw [head?_cons, Option.all_some, Bool.not_eq_true'] at h
      exact dropWhile_cons_of_neg (by rw [h]; exact Bool.false_ne_true)
  unfold trim trimStart trimEnd
  rw [hdrop hfirst, hdrop (by rwa [head?_reverse]), reverse_reverse]

theorem trim_word (h : isWord word) : trim word = word := by
  have hblank := fun c hc => isBlank_of_isWordPart (isWordPart_of_isWord h c hc)
  refine trim_eq_self ?_ ?_ <;> rw [Option.all_eq_true] <;> intro c hc
  · rw [hblank c (mem_of_mem_head? hc)]
    rfl
  · rw [hblank c (mem_of_getLast? hc)]
    rfl

end Text

def Callee.text : Callee → Text
  | .function none name => name
  | .function (some qualifier) name => qualifier ++ ":" ++ name
  | .remote target method => target ++ "->" ++ method
  | .resource target path method => target ++ "->" ++ trim path ++ "." ++ method

/-- The names in what a call of a function or of a remote method invokes. -/
def Callee.words : Callee → List Text
  | .function none name => [name]
  | .function (some qualifier) name => [qualifier, name]
  | .remote target method => [target, method]
  | .resource .. => []

/-- The kinds of nodes for a call of a function or of a remote method. -/
def Callee.suits : Callee → NodeKind → Bool
  | .function .., kind => kind = .functionCall
  | .remote .., kind => kind ∈ [.remoteCall, .httpGet, .httpPost]
  | .resource .., _ => false

def Callee.names : Callee → List Text
  | .resource target _ method => [target, method]
  | callee => callee.words

def Callee.path? : Callee → Option Text
  | .resource _ path _ => some path
  | _ => none

def Callee.accepts : Callee → NodeKind → Bool
  | .resource .., kind => kind = .resourceCall
  | callee, kind => callee.suits kind

def Callee.properties (symbol : Symbol) : Callee → Properties
  | .function none name => [(Key.function, (Property.ofIdentifier name).readOnly)]
  | .function (some qualifier) name =>
    [(Key.function, (Property.ofIdentifier name).readOnly),
      (Key.module, match symbol.module with
        | some module => (Property.ofIdentifier qualifier).readOnly.withImport module.toText
        | none => (Property.ofIdentifier qualifier).readOnly)]
  | .remote target method =>
    [(Key.connection, .ofIdentifier target), (Key.method, (Property.ofIdentifier method).readOnly)]
  | .resource target path method =>
    [(Key.connection, .ofIdentifier target), (Key.resourcePath, .ofString path),
      (Key.method, (Property.ofIdentifier method).readOnly)]

def Expr.checkText : Expr → Text
  | .check _ true _ => "checkpanic "
  | .check _ false _ => "check "
  | _ => []

/-- The checks around an expression from the outermost one on, true for those that panic. -/
def Expr.checks : Expr → List Bool
  | .check _ panics inner => panics :: inner.checks
  | _ => []

/-- What becomes of the result of a call: it is kept in a new variable, assigned to a target, or the
call stands alone. -/
inductive Lead where
  | declared (isFinal : Bool) (typeName name : Text)
  | assigned (target : Text)
  | alone
deriving DecidableEq

namespace Lead

/-- The properties for the result of a call. -/
def properties : Lead → Properties
  | declared _ typeName name => [(Key.type, .ofType typeName), (Key.name, .ofIdentifier name)]
  | assigned target => [(Key.name, .ofIdentifier target)]
  | alone => []

def text : Lead → Text
  | declared _ typeName name => trim typeName ++ " " ++ trim name ++ " = "
  | assigned target => trim target ++ " = "
  | alone => []

theorem key_of_mem (lead : Lead) :
    ∀ key ∈ lead.properties.map Prod.fst, key ∈ [Key.type, Key.name] := by
  cases lead with
  | declared => exact fun key hkey => hkey
  | assigned => exact fun key hkey => mem_cons_of_mem _ hkey
  | alone => exact nofun

end Lead

namespace Properties

theorem find?_key (h : key ∉ a.map Prod.fst) : a.find? (fun entry => entry.1 = key) = none :=
  find?_eq_none.mpr fun _ hmem heq => h (of_decide_eq_true heq ▸ mem_map_of_mem hmem)

theorem get?_append_left {b : Properties} (h : key ∉ b.map Prod.fst) :
    (a ++ b).get? key = a.get? key := by
  unfold get?
  rw [find?_append, find?_key h, Option.or_none]

theorem get?_append_right {b : Properties} (h : key ∉ a.map Prod.fst) :
    (a ++ b).get? key = b.get? key := by
  unfold get?
  rw [find?_append, find?_key h, Option.none_or]

end Properties

/-- The keys for what a call invokes are keys of its structure, other than those for its result. -/
theorem Callee.key_of_mem (callee : Callee) (symbol : Symbol) :
    ∀ key ∈ (callee.properties symbol).map Prod.fst,
      Key.callStructure.contains key ∧ key ∉ [Key.type, Key.name] := by
  have hkeys : ∀ keys ∈ [[Key.function], [Key.function, Key.module], [Key.connection, Key.method],
      [Key.connection, Key.resourcePath, Key.method]], ∀ key ∈ keys,
        Key.callStructure.contains key ∧ key ∉ [Key.type, Key.name] := by
    decide
  rcases callee with ⟨_ | qualifier, name⟩ | ⟨target, method⟩ | ⟨target, path, method⟩
  · exact hkeys [Key.function] (by decide)
  · exact hkeys [Key.function, Key.module] (by decide)
  · exact hkeys [Key.connection, Key.method] (by decide)
  · exact hkeys [Key.connection, Key.resourcePath, Key.method] (by decide)

namespace Render

variable {node : Node} {arguments' : Properties}

theorem arguments_not_mem
    (hfree : ∀ key ∈ arguments'.map Prod.fst, Key.callStructure.contains key = false)
    (hkey : Key.callStructure.contains key) : key ∉ arguments'.map Prod.fst :=
  fun hmem => Bool.false_ne_true ((hfree key hmem).symm.trans hkey)

/-- A call is written from its structure and its arguments. -/
theorem call_eq {first : Script} (h : node.properties.filter isArgument = arguments')
    (hassignee : assignee node = .ok first) (hcallee : callee node (check node first) = .ok script)
    (hblank : ∀ entry ∈ arguments', entry.2.isBlank → entry.2.optional)
    (hnames : ∀ piece ∈ pieces false arguments', ∀ name, piece.1 = some name → trim name ≠ []) :
    call node =
      .ok (script.text ++ "(" ++ listed true (pieces false arguments') ++ ")" ++ ";") := by
  have hglued : (script.join "(").glued := rfl
  have hfree : ∀ key ∈ arguments'.map Prod.fst, Key.callStructure.contains key = false := by
    intro key hkey
    obtain ⟨entry, hentry, rfl⟩ := mem_map.mp hkey
    rw [← h, mem_filter] at hentry
    exact Bool.not_eq_true' _ ▸ hentry.2
  obtain ⟨after, harguments, hafter⟩ := arguments_eq node hfree hblank hnames hglued nofun
  unfold call
  rw [hassignee]
  change (callee node (check node first) >>= _) = _
  rw [hcallee]
  change (arguments node true false (script.join "(") node.properties >>= _) = _
  rw [arguments_filter, h, harguments]
  change Except.ok (endStatement (after.close ")")) = _
  unfold endStatement close
  rw [hafter]
  rfl

/-- The flags of a call without those for its check. -/
def uncheckedFlags : List Flags :=
  [{}, .remote, .resource, .final, Flags.insert .remote .final, Flags.insert .resource .final]

theorem flags_checked : ∀ flags ∈ uncheckedFlags,
    (flags.insert .checkPanic).contains .checkPanic ∧
    (flags.insert .checked).contains .checkPanic = false ∧
    (flags.insert .checked).contains .checked ∧
    (flags.insert {}).contains .checkPanic = false ∧
    (flags.insert {}).contains .checked = false := by
  decide

/-- The check is written before what follows it. -/
theorem check_word {value : Expr} {flags : Flags} {lead : Text}
    (hflags : node.flags = flags.insert (Call.checkFlag value)) (hplain : flags ∈ uncheckedFlags)
    (hscript : ∀ text, script.word text = ⟨lead ++ text, false⟩) (text : Text) :
    (check node script).word text = ⟨lead ++ value.checkText ++ text, false⟩ := by
  obtain ⟨hpanics, hchecked, hchecked', hplain, hplain'⟩ := flags_checked flags hplain
  have hapart {word : Text} (hword : trim word = word) (hne : word ≠ []) :
      (script.word word).word text = ⟨lead ++ (word ++ " ") ++ text, false⟩ := by
    have hgap : (⟨lead ++ word, false⟩ : Script).atGap = false :=
      atGap_trim lead (congrArg (lead ++ ·) hword.symm) (hword.symm ▸ hne)
    rw [hscript, word_apart rfl hgap]
    simp
  unfold check Node.hasFlag
  rw [hflags]
  cases value with
  | check extent panics inner =>
    cases panics with
    | true =>
      change word (if (flags.insert .checkPanic).contains .checkPanic then _ else _)
        text = _
      rw [hpanics]
      exact hapart rfl (by decide)
    | false =>
      change word (if (flags.insert .checked).contains .checkPanic then _ else
        if (flags.insert .checked).contains .checked then _ else _) text = _
      rw [hchecked, hchecked']
      exact hapart rfl (by decide)
  | call | other =>
    change word (if (flags.insert {}).contains .checkPanic then _ else
      if (flags.insert {}).contains .checked then _ else _) text = _
    rw [hplain, hplain', if_neg Bool.false_ne_true, if_neg Bool.false_ne_true, hscript]
    exact congrArg (fun front => (⟨front ++ text, false⟩ : Script)) (append_nil lead).symm

end Render

namespace Call

variable {setting : Setting} {extent : Extent} {value : Expr} {callee : Callee} {args : List Expr}
  {symbol : Symbol} {node : Node}

theorem trim_ne_nil_of_isWord (h : isWord word) : trim word ≠ [] := by
  rw [trim_word h]
  rintro rfl
  cases h

theorem properties_withCallee (connectors : Option ConnectorIndex) (symbol : Symbol) {draft : Draft}
    (callee : Callee) (h : ∀ key ∈ draft.properties.map Prod.fst, key ∈ [Key.type, Key.name]) :
    (withCallee connectors symbol draft callee).properties =
      draft.properties ++ callee.properties symbol := by
  have hfresh {key : Text} (hkey : key ∉ [Key.type, Key.name]) : key ∉ draft.properties.map Prod.fst :=
    fun hmem => hkey (h key hmem)
  have hinsert {key : Text} (hkey : key ∉ [Key.type, Key.name]) (property : Property)
      (rest : Properties) : Properties.insert key property (draft.properties ++ rest) =
        draft.properties ++ Properties.insert key property rest :=
    insert_append property rest (hfresh hkey)
  rcases callee with ⟨_ | qualifier, name⟩ | ⟨target, method⟩ | ⟨target, path, method⟩
  · exact insert_of_not_mem _ (hfresh (by decide))
  · change Properties.insert Key.module _ (Properties.insert Key.function _ draft.properties) = _
    rw [insert_of_not_mem _ (hfresh (by decide)), hinsert (by decide),
      Properties.insert]
    rfl
  · change Properties.insert Key.method _ (Properties.insert Key.connection _ draft.properties) = _
    rw [insert_of_not_mem _ (hfresh (by decide)), hinsert (by decide),
      Properties.insert]
    rfl
  · have hpath : Key.connection ≠ Key.resourcePath := by decide
    have hmethod : Key.connection ≠ Key.method ∧ Key.resourcePath ≠ Key.method := by decide
    change Properties.insert Key.method _ (Properties.insert Key.resourcePath _
      (Properties.insert Key.connection _ draft.properties)) = _
    rw [insert_of_not_mem _ (hfresh (by decide)), hinsert (by decide),
      hinsert (by decide)]
    rfl

theorem flags_withCallee (connectors : Option ConnectorIndex) (symbol : Symbol) {draft : Draft}
    (callee : Callee) (h : draft.flags = {}) :
    (withCallee connectors symbol draft callee).flags ∈ [({} : Flags), .remote, .resource] := by
  rcases callee with ⟨_ | qualifier, name⟩ | ⟨target, method⟩ | ⟨target, path, method⟩
  · exact mem_cons.mpr (.inl h)
  · exact mem_cons.mpr (.inl h)
  · change draft.flags.insert _ ∈ _
    rw [h]
    decide
  · change draft.flags.insert _ ∈ _
    rw [h]
    decide

theorem mem_uncheckedFlags : ∀ flags ∈ [({} : Flags), .remote, .resource],
    flags ∈ uncheckedFlags ∧ flags.insert .final ∈ uncheckedFlags := by
  decide

/-- A name that is written as it is: it is not empty and has no blanks around it. -/
structure Tight (name : Text) : Prop where
  trim_eq : trim name = name
  ne_nil : name ≠ []

theorem Tight.trim_ne_nil {name : Text} (h : Tight name) : trim name ≠ [] := h.trim_eq.symm ▸ h.ne_nil

theorem Tight.of_isWord {name : Text} (h : isWord name) : Tight name :=
  ⟨trim_word h, trim_word h ▸ trim_ne_nil_of_isWord h⟩

/-- A node with the properties of a call, in whatever order: those for its result, those for what it
invokes, and its arguments. -/
structure Composed (node : Node) (lead : Lead) (symbol : Symbol) (callee : Callee)
    (rest : Properties) : Prop where
  result : ∀ key ∈ [Key.type, Key.name], node.property? key = lead.properties.get? key
  invoked : ∀ key ∉ [Key.type, Key.name], Key.callStructure.contains key = true →
    node.property? key = (callee.properties symbol).get? key
  arguments : node.properties.filter isArgument = rest

theorem structure_of_result :
    ∀ key ∈ [Key.type, Key.name], Key.callStructure.contains key := by
  decide

theorem filter_isArgument {properties : Properties}
    (h : ∀ key ∈ properties.map Prod.fst, Key.callStructure.contains key = false) :
    properties.filter isArgument = properties :=
  filter_eq_self.mpr fun entry hentry => by
    rw [isArgument, h _ (mem_map_of_mem hentry)]
    rfl

theorem filter_structure {properties : Properties}
    (h : ∀ key ∈ properties.map Prod.fst, Key.callStructure.contains key) :
    properties.filter isArgument = [] :=
  filter_eq_nil_iff.mpr fun entry hentry => by
    rw [isArgument, h _ (mem_map_of_mem hentry)]
    decide

namespace Composed

variable {lead : Lead} {rest : Properties}

theorem key_of_mem (lead : Lead) (symbol : Symbol) (callee : Callee) :
    ∀ key ∈ (lead.properties ++ callee.properties symbol).map Prod.fst,
      Key.callStructure.contains key := by
  intro key hkey
  rw [map_append] at hkey
  exact (mem_append.mp hkey).elim (fun hmem => structure_of_result key (lead.key_of_mem key hmem))
    fun hmem => (callee.key_of_mem symbol key hmem).1

theorem of_properties (h : node.properties = (lead.properties ++ callee.properties symbol) ++ rest)
    (hfree : ∀ key ∈ rest.map Prod.fst, Key.callStructure.contains key = false) :
    Composed node lead symbol callee rest where
  result key hkey := by
    rw [Node.property?, h,
      get?_append_left (arguments_not_mem hfree (structure_of_result key hkey)),
      get?_append_left fun hmem => (callee.key_of_mem symbol key hmem).2 hkey]
  invoked key hkey hstructure := by
    rw [Node.property?, h, get?_append_left (arguments_not_mem hfree hstructure),
      get?_append_right fun hmem => hkey (lead.key_of_mem key hmem)]
  arguments := by
    rw [h, filter_append, filter_structure (key_of_mem lead symbol callee), filter_isArgument hfree]
    rfl

theorem assignee_eq (h : Composed node lead symbol callee rest)
    (hgiven : ∀ entry ∈ lead.properties, trim entry.2.value ≠ []) :
    ∃ script, assignee node = .ok script ∧
      ∀ text, script.word text = ⟨lead.text ++ text, false⟩ := by
  have htype : node.property? Key.type = lead.properties.get? Key.type :=
    h.result _ (by decide)
  have hname : node.property? Key.name = lead.properties.get? Key.name :=
    h.result _ (by decide)
  -- An equals sign after a name, and what follows it.
  have hequals {front : Text} {name : Text} (hne : trim name ≠ []) (text : Text) :
      ((⟨front ++ trim name, false⟩ : Script).word "=").word text =
        ⟨front ++ trim name ++ " = " ++ text, false⟩ := by
    have hgap : (⟨front ++ trim name, false⟩ : Script).atGap = false :=
      atGap_trim front rfl hne
    have hgap' : (⟨front ++ trim name ++ [' '] ++ trim "=", false⟩ : Script).atGap = false :=
      atGap_trim _ rfl (by decide)
    rw [word_apart rfl hgap]
    refine (congrArg (word · text) (?_ : _ = (⟨front ++ trim name ++ [' '] ++
      trim "=", false⟩))).trans ?_
    · simp only [append_assoc]
      rfl
    · rw [word_apart rfl hgap']
      simp only [append_assoc]
      rfl
  unfold assignee
  cases lead with
  | declared isFinal typeName name =>
    have htypes : trim typeName ≠ [] := hgiven _ mem_cons_self
    have hnames : trim name ≠ [] := hgiven _ (mem_cons_of_mem _ mem_cons_self)
    have hgap : (⟨trim typeName, false⟩ : Script).atGap = false :=
      atGap_trim [] rfl htypes
    rw [given?_of_property? htype htypes, given?_of_property? hname hnames]
    refine ⟨_, rfl, fun text => ?_⟩
    have hbinding : ({} : Script).binding typeName name =
        ⟨trim typeName ++ " " ++ trim name, false⟩ := by
      refine (@word_apart ⟨trim typeName, false⟩ rfl hgap _).trans ?_
      simp
    change ((({} : Script).binding typeName name).word "=").word text = _
    rw [hbinding]
    exact hequals hnames text
  | assigned target =>
    have htarget : trim target ≠ [] := hgiven _ mem_cons_self
    rw [given?_of_none htype, given?_of_property? hname htarget]
    exact ⟨_, rfl, @hequals [] target htarget⟩
  | alone =>
    rw [given?_of_none htype, given?_of_none hname]
    exact ⟨_, rfl, fun text => rfl⟩

theorem callee_eq (h : Composed node lead symbol callee rest)
    (hnames : ∀ name ∈ callee.names, Tight name)
    (hpath : ∀ path ∈ callee.path?, trim path ≠ []) (hkind : callee.accepts node.kind)
    {front : Text} (hscript : ∀ text, script.word text = ⟨front ++ text, false⟩) :
    ∃ after, Render.callee node script = .ok after ∧ after.text = front ++ callee.text := by
  have htrimmed {word : Text} (hword : Tight word) :
      script.trimmed word = ⟨front ++ word, false⟩ := by
    unfold trimmed
    rw [hscript, hword.trim_eq]
  have hjoined {script : Script} {word : Text} (hword : Tight word) (sign : Text) :
      (script.join sign).trimmed word = ⟨script.text ++ sign ++ word, false⟩ := by
    unfold trimmed
    rw [hword.trim_eq]
    rfl
  have hlook {key : Text} (hkey : key ∉ [Key.type, Key.name])
      (hstructure : Key.callStructure.contains key) {property : Property}
      (hproperty : (callee.properties symbol).get? key = some property) :
      node.property? key = some property :=
    (h.invoked _ hkey hstructure).trans hproperty
  unfold Render.callee
  cases callee with
  | function qualifier name =>
    have hname : Tight name :=
      hnames name (by cases qualifier <;> simp [Callee.names, Callee.words])
    rw [if_pos (of_decide_eq_true hkind)]
    cases qualifier with
    | none =>
      rw [required_of_property? (hlook (by decide) (by decide) rfl)
          hname.trim_ne_nil,
        given?_of_none ((h.invoked _ (by decide) (by decide)).trans rfl)]
      exact ⟨_, rfl, congrArg text (htrimmed hname)⟩
    | some qualifier =>
      have hqualifier : Tight qualifier :=
        hnames qualifier (by simp [Callee.names, Callee.words])
      obtain ⟨property, hvalue, hmodule⟩ : ∃ property : Property, property.value = qualifier ∧
          ((Callee.function (some qualifier) name).properties symbol).get? Key.module =
            some property := by
        cases hmodule : symbol.module with
        | none => exact ⟨(Property.ofIdentifier qualifier).readOnly, rfl, by
            unfold Callee.properties; rw [hmodule]; rfl⟩
        | some module => exact ⟨(Property.ofIdentifier qualifier).readOnly.withImport module.toText,
            rfl, by unfold Callee.properties; rw [hmodule]; rfl⟩
      rw [required_of_property? (hlook (by decide) (by decide) rfl)
          hname.trim_ne_nil,
        given?_of_property? (hlook (by decide) (by decide) hmodule)
          (hvalue ▸ hqualifier.trim_ne_nil)]
      refine ⟨_, rfl, ?_⟩
      rw [hvalue, htrimmed hqualifier]
      refine (congrArg text (hjoined hname ":")).trans ?_
      simp [Callee.text]
  | remote target method =>
    have htarget : Tight target := hnames target (by simp [Callee.names, Callee.words])
    have hmethod : Tight method := hnames method (by simp [Callee.names, Callee.words])
    have hkinds : node.kind ∈ [NodeKind.remoteCall, .httpGet, .httpPost] := of_decide_eq_true hkind
    have hcalls : ∀ kind ∈ [NodeKind.remoteCall, .httpGet, .httpPost],
        kind ≠ .functionCall ∧ kind ≠ .resourceCall := by decide
    rw [if_neg (hcalls _ hkinds).1, if_neg (hcalls _ hkinds).2,
      required_of_property? (hlook (by decide) (by decide) rfl) htarget.trim_ne_nil]
    rw [required_of_property? (hlook (by decide) (by decide) rfl)
      hmethod.trim_ne_nil]
    refine ⟨_, rfl, (congrArg text (hjoined hmethod "->")).trans ?_⟩
    change (script.trimmed target).text ++ "->" ++ method = _
    rw [htrimmed htarget]
    simp [Callee.text]
  | resource target path method =>
    have htarget : Tight target := hnames target (by simp [Callee.names])
    have hmethod : Tight method := hnames method (by simp [Callee.names])
    have hresource : node.kind = .resourceCall := of_decide_eq_true hkind
    rw [if_neg (by rw [hresource]; decide), if_pos hresource,
      required_of_property? (hlook (by decide) (by decide) rfl) htarget.trim_ne_nil]
    rw [required_of_property? (hlook (by decide) (by decide) rfl) (hpath path rfl)]
    rw [required_of_property? (hlook (by decide) (by decide) rfl)
      hmethod.trim_ne_nil]
    refine ⟨_, rfl, (congrArg text (hjoined hmethod ".")).trans ?_⟩
    change (((script.trimmed target).join "->").word (trim path)).text ++ "." ++ method = _
    rw [htrimmed htarget, word_glued rfl]
    simp [Callee.text, join]

theorem statement_eq (hkind : callee.accepts node.kind) (width : Nat)
    (parts : List Part) : Render.statement width node parts = Render.call node := by
  have hcalls : ∀ kind ∈ [NodeKind.functionCall, .remoteCall, .httpGet, .httpPost, .resourceCall],
      node.kind = kind → Render.statement width node parts = Render.call node := by
    intro kind hmem hkind
    unfold Render.statement
    rw [hkind]
    simp only [mem_cons, not_mem_nil, or_false] at hmem
    rcases hmem with rfl | rfl | rfl | rfl | rfl <;> rfl
  cases callee with
  | function => exact hcalls .functionCall (by decide) (of_decide_eq_true hkind)
  | remote =>
    have hmem : node.kind ∈ [NodeKind.remoteCall, .httpGet, .httpPost] := of_decide_eq_true hkind
    refine hcalls node.kind ?_ rfl
    simp only [mem_cons] at hmem ⊢
    tauto
  | resource => exact hcalls .resourceCall (by decide) (of_decide_eq_true hkind)

theorem render_eq (h : Composed node lead symbol callee rest) {flags : Flags} (width : Nat)
    (hgiven : ∀ entry ∈ lead.properties, trim entry.2.value ≠ [])
    (hnames : ∀ name ∈ callee.names, Tight name)
    (hpath : ∀ path ∈ callee.path?, trim path ≠ []) (hkind : callee.accepts node.kind)
    (hflags : node.flags = flags.insert (checkFlag value))
    (hplain : flags ∈ uncheckedFlags)
    (hblank : ∀ entry ∈ rest, entry.2.isBlank → entry.2.optional)
    (hwritten : ∀ piece ∈ Render.pieces false rest, ∀ name, piece.1 = some name →
      trim name ≠ []) :
    render width node = .ok (lead.text ++ value.checkText ++ callee.text ++ "(" ++
      Render.listed true (Render.pieces false rest) ++ ")" ++ ";") := by
  obtain ⟨first, hassignee, hfirst⟩ := h.assignee_eq hgiven
  obtain ⟨script, hcallee, htext⟩ :=
    h.callee_eq hnames hpath hkind (check_word hflags hplain hfirst)
  rw [Render.render_eq, statement_eq hkind,
    call_eq h.arguments hassignee hcallee hblank hwritten, htext]

end Composed

theorem isWord_of_given {piece : Given} {name : Text} (hmem : piece ∈ args.map given)
    (hname : piece.1 = some name) : isWord name := by
  obtain ⟨arg, -, rfl⟩ := mem_map.mp hmem
  unfold given at hname
  cases hnamed : arg.namedArgument? with
  | none =>
    rw [hnamed] at hname
    cases hname
  | some pair =>
    rw [hnamed] at hname
    cases hname
    obtain ⟨⟨before, after⟩, -, hsome⟩ := Option.bind_eq_some_iff.mp hnamed
    dsimp only at hsome
    split at hsome
    · next hword =>
      cases hsome
      exact hword.1
    · cases hsome

/-- A property of an argument is blank only where the argument may be left out. -/
theorem optional_of_isBlank {pieces : List Given} (h : ∀ piece ∈ pieces, trim piece.2 ≠ []) :
    ∀ entry ∈ entries current params pieces, entry.2.isBlank → entry.2.optional := by
  intro entry hentry hblank
  have hfilled {text : Text} (htext : trim text ≠ [])
      (hempty : (trim text).isEmpty) : False := htext (List.isEmpty_iff.mp hempty)
  rcases mem_append.mp hentry with hentry | hentry
  · obtain ⟨⟨param, _ | value⟩, hitem, hparam⟩ := mem_filterMap.mp hentry
    · unfold parameterEntry at hparam
      dsimp only at hparam
      split at hparam
      · next hdefault =>
        cases hparam
        exact hdefault
      · cases hparam
    · cases hparam
      obtain ⟨place, hplace⟩ := getElem?_of_mem hitem
      rcases assigned_cases (assigned_of_getElem? hplace) with ⟨-, hmem⟩ | hmem
      · exact (hfilled (h _ hmem) hblank).elim
      · exact (hfilled (h _ hmem) hblank).elim
  rcases mem_append.mp hentry with hentry | hentry
  · obtain ⟨item, hitem, rfl⟩ := mem_map.mp hentry
    have hmem : item.1 ∈ byPlace pieces := by
      rw [← zipIdx_map_fst 0 (byPlace pieces)]
      exact mem_map_of_mem (mem_of_mem_drop hitem)
    exact (hfilled (h _ (mem_of_byPlace hmem)) hblank).elim
  · obtain ⟨arg, harg, rfl⟩ := mem_map.mp hentry
    exact (hfilled (h _ (mem_of_byName (mem_filter.mp harg).1)) hblank).elim

/-- A recognized call whose arguments can be written: they are kept under keys of their own, keep
their places and are not blank. -/
structure Writable (current : Option ModuleName) (params : List (Parameter TypeDesc))
    (args : List Expr) : Prop where
  keyed : Keyed current params (args.map given)
  inPlace : inPlace (!(strangers params (args.map given)).isEmpty) (rebound params (args.map given)) =
    true
  filled : ∀ piece ∈ args.map given, trim piece.2 ≠ []

theorem node?_expression {callExtent : Extent} (hcall : value.unchecked = .call callExtent callee args)
    (hsymbol : setting.symbols.resolve? (.call callExtent callee args) = some symbol)
    (hinvokes : invokes callee symbol.kind)
    (hkeyed : Keyed setting.current symbol.params (args.map given)) :
    ∃ node, (Statement.expression extent value).node? setting = some node ∧
      node.flags = (withCallee setting.connectors symbol (Draft.begun extent) callee).flags.insert
        (checkFlag value) ∧
      Composed node .alone symbol callee (entries setting.current symbol.params (args.map given)) := by
  have hproperties : (withCallee setting.connectors symbol (Draft.begun extent) callee).properties =
      callee.properties symbol :=
    properties_withCallee _ _ _ nofun
  refine ⟨(((withArguments setting.current symbol args (withCallee setting.connectors symbol
    (Draft.begun extent) callee))).withFlag (checkFlag value)).toNode, ?_, ?_⟩
  · rw [Statement.node?, Walker.express, recognize, hcall]
    dsimp only
    rw [hsymbol]
    dsimp only
    rw [if_pos hinvokes]
    rfl
  · rw [withArguments_eq hkeyed (by
      rw [hproperties]
      exact fun key hkey => (callee.key_of_mem symbol key hkey).1)]
    exact ⟨rfl, .of_properties (congrArg (· ++ _) hproperties) hkeyed.free⟩

theorem render_expression {callExtent : Extent} {width : Nat}
    (hcall : value.unchecked = .call callExtent callee args)
    (hsymbol : setting.symbols.resolve? (.call callExtent callee args) = some symbol)
    (hinvokes : invokes callee symbol.kind)
    (hargs : Writable setting.current symbol.params args)
    (hnode : (Statement.expression extent value).node? setting = some node)
    (hwords : ∀ word ∈ callee.words, isWord word)
    (hsuits : callee.suits node.kind) :
    render width node = .ok (value.checkText ++ callee.text ++ "(" ++
      Render.listed true (written symbol.params (args.map given)) ++ ")" ++ ";") := by
  obtain ⟨found, hfound, hflags, hcomposed⟩ :=
    node?_expression hcall hsymbol hinvokes hargs.keyed
  obtain rfl : found = node := Option.some.inj (hfound.symm.trans hnode)
  have hpieces : Render.pieces false (entries setting.current symbol.params (args.map given)) =
      written symbol.params (args.map given) := pieces_entries hargs.filled
  obtain ⟨hnames, hpath, haccepts⟩ : callee.names = callee.words ∧ callee.path? = none ∧
      callee.accepts found.kind := by
    cases callee with
    | resource => cases hsuits
    | _ => exact ⟨rfl, rfl, hsuits⟩
  rw [← hpieces]
  refine hcomposed.render_eq width nofun
    (fun name hname => .of_isWord (hwords name (hnames ▸ hname)))
    (by rw [hpath]; exact nofun) haccepts hflags
    (mem_uncheckedFlags _ (flags_withCallee _ _ _ rfl)).1 (optional_of_isBlank hargs.filled) ?_
  rw [hpieces]
  intro piece hpiece name hname
  refine trim_ne_nil_of_isWord ?_
  rcases mem_written hargs.inPlace hpiece with hmem | ⟨hnone, -⟩
  · exact isWord_of_given hmem hname
  · cases hnone.symm.trans hname

end Call

end Flowchart
