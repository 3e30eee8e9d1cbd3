import Flowchart.Proofs.CallText
import Flowchart.Proofs.History
import Mathlib.Data.List.Nodup
import Mathlib.Data.List.Perm.Subperm

/-!
Templates of calls. The template of a call holds what is invoked, a property for each parameter and,
where there is a result, a variable for it. Once every parameter has a value the template is rendered
as the call with these values in their order, unless a parameter has the name of a property that
describes the call itself.
-/
namespace Flowchart

open List Text

/-- Parameters with the values they are given. -/
abbrev Arguments := List (Parameter TypeDesc × Text)

variable {context : Template.Context} {index : Option ConnectorIndex} {symbol : Symbol}
  {connection : Option Text} {draft : Draft} {args : Arguments} {key : Text} {front : Properties}

theorem Properties.setValue_middle {property : Property} (value : Text)
    (h : key ∉ front.map Prod.fst) (back : Properties) :
    setValue key value (front ++ (key, property) :: back) =
      front ++ (key, { property with value := value }) :: back := by
  have hget : (front ++ (key, property) :: back).get? key = some property := by
    rw [get?_append_right h, get?]
    simp
  rw [setValue, hget]
  dsimp only
  rw [insert_append _ _ h, insert, if_pos rfl]

theorem Flags.insert_nothing (flags : Flags) : flags.insert {} = flags :=
  congrArg Flags.mk UInt8.or_zero

/-- Sets the values of the properties of parameters. -/
def Node.setArguments (node : Node) (args : Arguments) : Node :=
  args.foldl (fun node arg => node.setValue arg.1.name arg.2) node

namespace Template

/-- The properties of parameters with their values. -/
def argumentEntries (context : Context) (args : Arguments) : Properties :=
  args.map fun arg => (arg.1.name, parameterProperty context.current arg.1 arg.2)

theorem keys_argumentEntries (context : Context) (args : Arguments) :
    (argumentEntries context args).map Prod.fst = (args.map Prod.fst).map (·.name) := by
  rw [argumentEntries, map_map, map_map]
  rfl

/-- The parameters before any of them has a value. -/
def unset (params : List (Parameter TypeDesc)) : Arguments := params.map fun param => (param, [])

theorem map_fst_unset (params : List (Parameter TypeDesc)) : (unset params).map Prod.fst = params := by
  rw [unset, map_map]
  exact map_id params

theorem setArguments_parts (node : Node) (args : Arguments) :
    (node.setArguments args).kind = node.kind ∧ (node.setArguments args).flags = node.flags := by
  induction args generalizing node with
  | nil => exact ⟨rfl, rfl⟩
  | cons arg args ih => exact ih (node.setValue arg.1.name arg.2)

theorem properties_setArguments {node : Node} {back : Properties}
    (hnode : node.properties = front ++ (argumentEntries context (unset (args.map Prod.fst)) ++ back))
    (hnodup : ((args.map Prod.fst).map (·.name)).Nodup)
    (hfresh : ∀ arg ∈ args, arg.1.name ∉ front.map Prod.fst) :
    (node.setArguments args).properties = front ++ (argumentEntries context args ++ back) := by
  induction args generalizing node front with
  | nil => exact hnode
  | cons arg args ih =>
    have hother : arg.1.name ∉ (args.map Prod.fst).map (·.name) := (nodup_cons.mp hnodup).1
    have hset : (node.setValue arg.1.name arg.2).properties = (front ++ [(arg.1.name,
        parameterProperty context.current arg.1 arg.2)]) ++
          (argumentEntries context (unset (args.map Prod.fst)) ++ back) := by
      rw [Node.setValue, hnode]
      refine (Properties.setValue_middle arg.2 (hfresh arg mem_cons_self) _).trans ?_
      rw [append_assoc]
      rfl
    refine (ih hset (nodup_cons.mp hnodup).2 fun other hmem => ?_).trans (append_assoc _ _ _)
    rw [map_append, mem_append, not_or]
    refine ⟨hfresh other (mem_cons_of_mem _ hmem), fun heq => hother ?_⟩
    have hname : other.1.name = arg.1.name := mem_singleton.mp heq
    exact hname ▸ mem_map_of_mem (mem_map_of_mem hmem)

theorem pieces_argumentEntries (h : ∀ arg ∈ args, trim arg.2 ≠ []) :
    Render.pieces false (argumentEntries context args) = args.map fun arg => (none, arg.2) := by
  induction args with
  | nil => rfl
  | cons arg args ih =>
    have hfilled : (trim arg.2).isEmpty = false := isEmpty_eq_false_iff.mpr (h arg mem_cons_self)
    change (if (trim arg.2).isEmpty then _ else _) = _
    rw [hfilled]
    exact congrArg (_ :: ·) (ih (forall_mem_cons.mp h).2)

theorem listed_arguments (args : Arguments) :
    Render.listed true (args.map fun arg => (none, arg.2)) =
      intercalate ", " (args.map (trim ·.2)) := by
  have hmore (args : Arguments) : Render.listed false (args.map fun arg => (none, arg.2)) =
      (args.map fun arg => ", " ++ trim arg.2).flatten := by
    induction args with
    | nil => rfl
    | cons arg args ih => exact congrArg (", " ++ trim arg.2 ++ ·) ih
  cases args with
  | nil => rfl
  | cons arg args =>
    refine (congrArg (trim arg.2 ++ ·) (hmore args)).trans ?_
    induction args generalizing arg with
    | nil => simp [intercalate]
    | cons other args ih => simpa [intersperse] using ih other

/-- What a call of the symbol invokes: the function, with the qualifier of its module unless that is
the current one, or the method of the connection. -/
def callee (context : Context) (index : Option ConnectorIndex) (symbol : Symbol) (connection : Text) :
    Callee :=
  if symbol.kind = .function then
    .function ((symbol.module.filter (some · ≠ context.current)).map ModuleName.qualifier) symbol.name
  else if methodKind index symbol = .resourceCall then .resource connection "/" symbol.name
  else .remote connection symbol.name

/-- The variable for the result of a call. -/
def result (context : Context) (symbol : Symbol) : Lead :=
  match symbol.returns?.filter (!·.isNil) with
  | some type => .declared false (TypeDesc.formatIgnoringErrors context.current type)
      (context.uniqueName "var")
  | none => .alone

/-- The check of a call that can fail. -/
def checkText (symbol : Symbol) : Text := if symbol.returns?.any (·.canFail) then "check " else []

theorem isWord_uniqueName (context : Context) {base : Text} (h : isWord base) :
    isWord (context.uniqueName base) := by
  unfold Context.uniqueName
  cases hfound : (context.candidates base).find? _ with
  | none => exact h
  | some name =>
    obtain ⟨n, -, rfl⟩ := mem_map.mp (mem_of_find?_eq_some hfound)
    exact Call.isWord_numbered h (n + 1)

theorem numbered_injective (base : Text) : Function.Injective fun n => base ++ ofNat n := by
  intro m n h
  have hvalue := congrArg (Nat.ofDigitChars 10 · 0) (append_cancel_left h)
  simpa only [ofNat, Nat.ofDigitChars_ten_toDigits] using hvalue

/-- The candidates are distinct and outnumber the names in scope. -/
theorem exists_candidate (context : Context) (base : Text) : ∃ n < context.visible.length + 1,
    ∀ symbol ∈ context.visible, symbol.name ≠ base ++ ofNat (n + 1) := by
  by_contra! hall
  have hnodup : (context.candidates base).Nodup :=
    Nodup.map ((numbered_injective base).comp Nat.succ_injective) nodup_range
  have hsubset : context.candidates base ⊆ context.visible.map (·.name) := by
    intro name hmem
    obtain ⟨n, hn, rfl⟩ := mem_map.mp hmem
    obtain ⟨symbol, hsymbol, hname⟩ := hall n (mem_range.mp hn)
    exact mem_map.mpr ⟨symbol, hsymbol, hname⟩
  have hlength := (hnodup.subperm hsubset).length_le
  rw [Context.candidates, length_map, length_range, length_map] at hlength
  omega

/-- A unique name is the base with the least number from one on that makes a name out of scope, and
the number is at most one more than there are names in scope. -/
theorem uniqueName_least (context : Context) (base : Text) :
    ∃ n, context.uniqueName base = base ++ ofNat n ∧ 1 ≤ n ∧ n ≤ context.visible.length + 1 ∧
      (∀ symbol ∈ context.visible, symbol.name ≠ base ++ ofNat n) ∧
      ∀ m, 1 ≤ m → m < n → ∃ symbol ∈ context.visible, symbol.name = base ++ ofNat m := by
  unfold Context.uniqueName Context.candidates
  rw [find?_map]
  cases hfound : find? _ (range (context.visible.length + 1)) with
  | none =>
    obtain ⟨n, hn, hfree⟩ := exists_candidate context base
    obtain ⟨symbol, hsymbol, hname⟩ :
        ∃ symbol ∈ context.visible, symbol.name = base ++ ofNat (n + 1) := by
      simpa using find?_eq_none.mp hfound n (mem_range.mpr hn)
    exact absurd hname (hfree symbol hsymbol)
  | some n =>
    obtain ⟨hfree, hn, hused⟩ := find?_range_eq_some.mp hfound
    refine ⟨n + 1, rfl, Nat.le_add_left 1 n, mem_range.mp hn, by simpa using hfree, ?_⟩
    intro m hpos hm
    obtain ⟨k, rfl⟩ := Nat.exists_eq_add_of_le' hpos
    simpa using hused k (Nat.lt_of_succ_lt_succ hm)

/-- A call that is begun with what it invokes. -/
structure Begins (symbol : Symbol) (callee : Callee) (draft : Draft) : Prop where
  properties : ∀ key, draft.properties.get? key = (callee.properties symbol).get? key
  flags : draft.flags ∈ [({} : Flags), .remote, .resource]
  kind : ∃ kind, draft.kind = some kind ∧ callee.accepts kind = true
  bare : draft.children = []

theorem begins_function (h : symbol.kind = .function) (connection : Text) :
    Begins symbol (callee context index symbol connection) (functionDraft context symbol) := by
  unfold callee functionDraft
  rw [if_pos h]
  cases hmodule : symbol.module with
  | none => exact ⟨fun _ => rfl, mem_cons_self, ⟨_, rfl, rfl⟩, rfl⟩
  | some module =>
    by_cases hcurrent : some module = context.current
    · rw [Option.filter_some, if_neg (by simpa using hcurrent)]
      simp only [if_pos hcurrent]
      exact ⟨fun _ => rfl, mem_cons_self, ⟨_, rfl, rfl⟩, rfl⟩
    · rw [Option.filter_some, if_pos (by simpa using hcurrent)]
      simp only [if_neg hcurrent]
      refine ⟨fun _ => ?_, mem_cons_self, ⟨_, rfl, rfl⟩, rfl⟩
      rw [Option.map_some, Callee.properties, hmodule]
      rfl

/-- The kinds of nodes for calls of methods. -/
def methodKinds : List NodeKind := [.remoteCall, .httpGet, .httpPost, .resourceCall]

theorem begins_method (h : symbol.kind ≠ .function)
    (hkind : methodKind index symbol ∈ methodKinds) (connection : Text) :
    Begins symbol (callee context index symbol connection)
      (methodDraft index symbol connection) := by
  unfold callee methodDraft
  rw [if_neg h]
  dsimp only
  split
  · next hresource =>
    refine ⟨fun key => ?_, (by decide : Flags.insert {} .resource ∈ _), ⟨_, rfl, ?_⟩, rfl⟩
    · change Properties.get? [(Key.connection, _), (Key.method, _), (Key.resourcePath, _)] key = _
      unfold Callee.properties Properties.get?
      by_cases hmethod : Key.method = key
      · subst hmethod
        rfl
      · simp only [find?_cons, decide_eq_false hmethod]
    · rw [hresource]
      rfl
  · next hremote =>
    refine ⟨fun _ => rfl, (by decide : Flags.insert {} .remote ∈ _), ⟨_, rfl, ?_⟩, rfl⟩
    have hkinds : ∀ kind ∈ methodKinds, kind ≠ .resourceCall →
        kind ∈ [NodeKind.remoteCall, .httpGet, .httpPost] := by decide
    exact decide_eq_true (hkinds _ hkind hremote)

theorem Begins.key_of_mem {callee : Callee} (h : Begins symbol callee draft) :
    ∀ key ∈ draft.properties.map Prod.fst,
      Key.callStructure.contains key ∧ key ∉ [Key.type, Key.name] := fun key hkey =>
  have hmem := Properties.mem_keys.mpr (h.properties key ▸ Properties.mem_keys.mp hkey)
  callee.key_of_mem symbol key hmem

/-- A step that only adds properties and flags. -/
structure Extends (draft after : Draft) (properties : Properties) (flag : Flags) : Prop where
  properties : after.properties = draft.properties ++ properties
  flags : after.flags = draft.flags.insert flag
  kind : after.kind = draft.kind
  children : after.children = draft.children

/-- The variable for the result and the check come last. -/
theorem withResult_extends (h : ∀ key ∈ [Key.type, Key.name], key ∉ draft.properties.map Prod.fst) :
    ∃ value : Expr, value.checkText = checkText symbol ∧
      Extends draft (withResult context symbol draft) (result context symbol).properties
        (Call.checkFlag value) := by
  unfold withResult result checkText
  cases symbol.returns? with
  | none =>
    exact ⟨default, rfl, (append_nil _).symm, (Flags.insert_nothing _).symm, rfl, rfl⟩
  | some type =>
    dsimp only
    rw [Option.filter_some, Option.any_some]
    cases hnil : type.isNil with
    | true =>
      have hfails : type.canFail = false := by
        cases type with
        | basic => rfl
        | _ => cases hnil
      exact ⟨default, by rw [hfails]; rfl, (append_nil _).symm, (Flags.insert_nothing _).symm, rfl,
        rfl⟩
    | false =>
      have hproperties (type name : Property) :
          ((draft.withProperty Key.type type).withProperty Key.name name).properties =
            draft.properties ++ [(Key.type, type), (Key.name, name)] :=
        @Properties.insertAll_eq_append draft.properties [(Key.type, type), (Key.name, name)]
          (by decide : [Key.type, Key.name].Nodup) h
      cases type.canFail with
      | true => exact ⟨.check default false default, rfl, hproperties _ _, rfl, rfl, rfl⟩
      | false => exact ⟨default, rfl, hproperties _ _, (Flags.insert_nothing _).symm, rfl, rfl⟩

/-- The properties of the parameters come after those of what is invoked. -/
theorem foldl_parameters {params : List (Parameter TypeDesc)} (label : Text)
    (hnodup : (params.map (·.name)).Nodup)
    (hfresh : ∀ param ∈ params, param.name ∉ draft.properties.map Prod.fst) :
    Extends draft (params.foldl (fun draft param =>
        draft.withProperty param.name (parameterProperty context.current param []))
      (draft.withLabel label)) (argumentEntries context (unset params)) {} := by
  have hall : params.filterMap (fun param => some (param.name, parameterProperty context.current param
      [])) = argumentEntries context (unset params) := by
    rw [filterMap_eq_map', argumentEntries, unset, map_map]
    rfl
  rw [@Draft.foldl_entries _ _ (fun param => some (param.name, parameterProperty context.current
    param [])) params (fun _ _ _ => rfl), hall]
  have hkeys : (argumentEntries context (unset params)).map Prod.fst = params.map (·.name) := by
    rw [keys_argumentEntries, map_fst_unset]
  refine ⟨Properties.insertAll_eq_append (hkeys ▸ hnodup) fun key hkey => ?_,
    (Flags.insert_nothing _).symm, rfl, rfl⟩
  rw [hkeys] at hkey
  obtain ⟨param, hparam, rfl⟩ := mem_map.mp hkey
  exact hfresh param hparam

/-- The symbol can be called, with a connection where it is a method. -/
def isCallable (symbol : Symbol) (connection : Option Text) : Bool :=
  symbol.kind = .function || symbol.kind.isMethod && connection.isSome

theorem ofCall_begins (h : isCallable symbol connection)
    (hkind : symbol.kind.isMethod → methodKind index symbol ∈ methodKinds) :
    ∃ draft, Begins symbol (callee context index symbol (connection.getD [])) draft ∧
      ofCall context index symbol connection = (withResult context symbol (symbol.params.foldl
        (fun draft param =>
          draft.withProperty param.name (parameterProperty context.current param []))
        (draft.withLabel symbol.name))).build := by
  by_cases hfunction : symbol.kind = .function
  · refine ⟨_, begins_function hfunction _, ?_⟩
    unfold ofCall
    rw [if_pos hfunction]
    rfl
  · obtain ⟨hmethod, hconnection⟩ : symbol.kind.isMethod ∧ connection.isSome := by
      simpa [isCallable, hfunction] using h
    obtain ⟨target, rfl⟩ := Option.isSome_iff_exists.mp hconnection
    refine ⟨_, begins_method hfunction (hkind hmethod) _, ?_⟩
    unfold ofCall
    rw [if_neg hfunction, if_pos hmethod]
    rfl

/-- The template of a call is made, of what is invoked, the parameters and the result. -/
theorem ofCall_extends (h : isCallable symbol connection)
    (hkind : symbol.kind.isMethod → methodKind index symbol ∈ methodKinds)
    (hnodup : (symbol.params.map (·.name)).Nodup)
    (hfree : ∀ param ∈ symbol.params, param.name ∉ Key.callStructure) :
    ∃ draft made value, Begins symbol (callee context index symbol (connection.getD [])) draft ∧
      ofCall context index symbol connection = .ok made.toNode ∧
      Extends draft made (argumentEntries context (unset symbol.params) ++
        (result context symbol).properties) (Call.checkFlag value) ∧
      value.checkText = checkText symbol := by
  obtain ⟨draft, hbegins, hcall⟩ := @ofCall_begins context index symbol connection h hkind
  have hlisted := @foldl_parameters context draft _ symbol.name hnodup fun param hparam hmem =>
    hfree param hparam (contains_iff_mem.mp (hbegins.key_of_mem _ hmem).1)
  obtain ⟨value, hcheck, hresult⟩ := @withResult_extends context symbol _ fun key hkey hmem => by
    rw [hlisted.properties, map_append, keys_argumentEntries, map_fst_unset] at hmem
    rcases mem_append.mp hmem with hmem | hmem
    · exact (hbegins.key_of_mem key hmem).2 hkey
    · obtain ⟨param, hparam, rfl⟩ := mem_map.mp hmem
      exact hfree param hparam (contains_iff_mem.mp (Call.structure_of_result _ hkey))
  have hmade : Extends draft (withResult context symbol _) _ (Call.checkFlag value) :=
    ⟨hresult.properties.trans (by rw [hlisted.properties, append_assoc]),
      hresult.flags.trans (by rw [hlisted.flags, Flags.insert_nothing]),
      hresult.kind.trans hlisted.kind, hresult.children.trans hlisted.children⟩
  refine ⟨draft, _, value, hbegins, ?_, hmade, hcheck⟩
  obtain ⟨kind, hsome, -⟩ := hbegins.kind
  rw [hcall, Draft.build_eq_toNode (by rw [hmade.kind, hsome]; rfl)
    (.inl (hmade.children.trans hbegins.bare))]

/-- The properties of a template with values for its parameters are those of a call. -/
theorem Begins.composed {node : Node} {callee : Callee} {lead : Lead}
    (h : Begins symbol callee draft)
    (hnode : node.properties = draft.properties ++ (argumentEntries context args ++ lead.properties))
    (hfree : ∀ arg ∈ args, arg.1.name ∉ Key.callStructure) :
    Call.Composed node lead symbol callee (argumentEntries context args) := by
  have hargs : ∀ key ∈ (argumentEntries context args).map Prod.fst,
      Key.callStructure.contains key = false := by
    intro key hkey
    rw [argumentEntries, map_map] at hkey
    obtain ⟨arg, harg, rfl⟩ := mem_map.mp hkey
    exact eq_false_of_ne_true fun hmem => hfree arg harg (contains_iff_mem.mp hmem)
  have hlead := fun key hkey => Call.structure_of_result key (lead.key_of_mem key hkey)
  refine ⟨fun key hkey => ?_, fun key hkey hstructure => ?_, ?_⟩
  · rw [Node.property?, hnode,
      Properties.get?_append_right fun hmem => (h.key_of_mem key hmem).2 hkey,
      Properties.get?_append_right (Render.arguments_not_mem hargs (Call.structure_of_result key hkey))]
  · rw [Node.property?, hnode, Properties.get?_append_left, h.properties]
    rw [map_append, mem_append, not_or]
    exact ⟨Render.arguments_not_mem hargs hstructure, fun hmem => hkey (lead.key_of_mem key hmem)⟩
  · rw [hnode, filter_append, filter_append, Call.filter_isArgument hargs,
      Call.filter_structure hlead, Call.filter_structure fun key hkey => (h.key_of_mem key hkey).1,
      append_nil]
    rfl

theorem result_given (h : ∀ type ∈ symbol.returns?, type.isNil = false →
    trim (TypeDesc.formatIgnoringErrors context.current type) ≠ []) :
    ∀ entry ∈ (result context symbol).properties, trim entry.2.value ≠ [] := by
  unfold result
  cases hreturns : symbol.returns?.filter (!·.isNil) with
  | none => exact nofun
  | some type =>
    obtain ⟨hsome, hnil⟩ := Option.filter_eq_some_iff.mp hreturns
    intro entry hentry
    rcases mem_cons.mp hentry with rfl | hentry
    · exact h type hsome (Bool.not_eq_true' _ ▸ hnil)
    · rw [mem_singleton.mp hentry]
      exact Call.trim_ne_nil_of_isWord (isWord_uniqueName context (by decide))

theorem callee_path (context : Context) (index : Option ConnectorIndex) (symbol : Symbol)
    (connection : Text) :
    ∀ path ∈ (callee context index symbol connection).path?, trim path ≠ [] := by
  unfold callee
  split
  · exact nofun
  split
  · rintro _ ⟨⟩
    decide
  · exact nofun

/-- The template of a call with a value for each parameter is rendered as a call of the symbol with
these values, with its result in a variable of the type that is returned. -/
theorem render_template (width : Nat) (hcallable : isCallable symbol connection = true)
    (hkind : symbol.kind.isMethod = true → methodKind index symbol ∈ methodKinds)
    (hnames : ∀ name ∈ (callee context index symbol (connection.getD [])).names, Call.Tight name)
    (htype : ∀ type ∈ symbol.returns?, type.isNil = false →
      trim (TypeDesc.formatIgnoringErrors context.current type) ≠ [])
    (hnodup : (symbol.params.map (·.name)).Nodup)
    (hfree : ∀ param ∈ symbol.params, param.name ∉ Key.callStructure)
    (hargs : args.map Prod.fst = symbol.params) (hvalues : ∀ arg ∈ args, trim arg.2 ≠ []) :
    ∃ node, ofCall context index symbol connection = .ok node ∧
      Render.render width (node.setArguments args) = .ok ((result context symbol).text ++
        checkText symbol ++ (callee context index symbol (connection.getD [])).text ++ "(" ++
        intercalate ", " (args.map (trim ·.2)) ++ ")" ++ ";") := by
  obtain ⟨draft, made, value, hbegins, hcall, hmade, hcheck⟩ :=
    @ofCall_extends context index symbol connection hcallable hkind hnodup hfree
  refine ⟨_, hcall, ?_⟩
  have hmem : ∀ arg ∈ args, arg.1 ∈ symbol.params := fun arg harg => hargs ▸ mem_map_of_mem harg
  have hproperties : made.toNode.properties = draft.properties ++
      (argumentEntries context (unset (args.map Prod.fst)) ++ (result context symbol).properties) :=
    hargs ▸ hmade.properties
  have hcomposed := hbegins.composed (properties_setArguments hproperties (hargs ▸ hnodup)
    fun arg harg hkey => hfree arg.1 (hmem arg harg)
      (contains_iff_mem.mp (hbegins.key_of_mem _ hkey).1)) fun arg harg => hfree arg.1 (hmem arg harg)
  obtain ⟨kind, hsome, haccepts⟩ := hbegins.kind
  obtain ⟨hsameKind, hsameFlags⟩ := setArguments_parts made.toNode args
  have hpieces := @pieces_argumentEntries context args hvalues
  rw [← listed_arguments, ← hpieces, ← hcheck]
  refine hcomposed.render_eq width (result_given htype) hnames (callee_path context index symbol _) ?_
    (hsameFlags.trans hmade.flags) (Call.mem_uncheckedFlags _ hbegins.flags).1 ?_ ?_
  · rw [hsameKind]
    change (callee context index symbol _).accepts (made.kind.getD default) = true
    rw [hmade.kind, hsome]
    exact haccepts
  · intro entry hentry hblank
    obtain ⟨arg, harg, rfl⟩ := mem_map.mp hentry
    exact absurd (isEmpty_iff.mp hblank) (hvalues arg harg)
  · rw [hpieces]
    intro piece hpiece name hname
    obtain ⟨arg, -, rfl⟩ := mem_map.mp hpiece
    cases hname

/-- A method `post` of a connection that takes a path and a message and returns a number or fails. -/
def postMethod : Symbol :=
  { kind := .remoteMethod, module := some ⟨"shop", "orders"⟩, name := "post"
    type := some (.function [⟨"path", .basic .string, false⟩, ⟨"message", .basic .json, true⟩]
      (.union [.basic .int, .error none none])) }

theorem render_template_post :
    ∃ node, ofCall {} none postMethod (some "client") = .ok node ∧
      Render.render 4 (node.setArguments [(⟨"path", .basic .string, false⟩, "\"/new\""),
        (⟨"message", .basic .json, true⟩, " item ")]) =
      .ok "int var1 = check client->post(\"/new\", item);" :=
  render_template 4 (by decide) (fun _ => by decide)
    (fun name hname => .of_isWord ((by decide : ∀ name ∈ [("client" : Text), "post"],
      isWord name = true) name hname))
    (fun type htype _ => by cases htype; decide) (by decide) (by decide) rfl (by decide)

/-- A function with a parameter called `name`. -/
def greeting : Symbol :=
  { kind := .function, name := "greet"
    type := some (.function [⟨"name", .basic .string, false⟩] (.basic .nil)) }

/-- The value of a parameter called `name` is taken for the variable of the result. -/
theorem render_greeting :
    ∃ node, ofCall {} none greeting none = .ok node ∧
      Render.render 4 (node.setArguments [(⟨"name", .basic .string, false⟩, "1")]) =
        .ok "1 = greet();" :=
  ⟨_, rfl, by decide⟩

end Template

end Flowchart
