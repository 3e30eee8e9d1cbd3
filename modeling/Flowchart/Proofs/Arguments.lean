import Flowchart.Diagram.Call

/-!
The arguments of a call and the arguments that are written back. Each parameter gets the argument in
its place or of its name. They are written by place up to the first parameter that is left out, and by
name after it, so reading them again gives every parameter the same argument, as long as the first
parameter that is left out may be left out and no argument has an unknown name before it.
-/
namespace Flowchart.Call

open List

variable {bound back : List (Parameter TypeDesc × Option Text)} {params : List (Parameter TypeDesc)}
  {pieces : List Given} {value : Text} {item : Parameter TypeDesc × Option Text} (args : List Expr)
  {others : List (Text × Text)}

/-- An argument as it is given: its name, if it has one, and its value. -/
abbrev Given := Option Text × Text

def given (arg : Expr) : Given :=
  match arg.namedArgument? with
  | some (name, value) => (some name, value)
  | none => (none, Text.trim arg.source)

def byPlace (pieces : List Given) : List Text :=
  pieces.filterMap fun piece => if piece.1.isSome then none else some piece.2

def byName (pieces : List Given) : List (Text × Text) :=
  pieces.filterMap fun piece => piece.1.map fun name => (name, piece.2)

/-- The argument for a parameter among those that are given. -/
def assigned (pieces : List Given) (place : Nat) (param : Parameter TypeDesc) : Option Text :=
  (byPlace pieces)[place]?.or (((byName pieces).find? (·.1 = param.name)).map (·.2))

def rebound (params : List (Parameter TypeDesc)) (pieces : List Given) :
    List (Parameter TypeDesc × Option Text) :=
  params.zipIdx.map fun item => (item.1, assigned pieces item.2 item.1)

/-- The arguments whose name is that of no parameter. -/
def strangers (params : List (Parameter TypeDesc)) (pieces : List Given) : List (Text × Text) :=
  (byName pieces).filter fun arg => !params.any (·.name = arg.1)

theorem positional_eq : positional args = byPlace (args.map given) := by
  unfold positional byPlace
  rw [filterMap_map]
  refine congrArg (List.filterMap · args) (funext fun arg => ?_)
  unfold given
  cases h : arg.namedArgument? <;> simp [h]

theorem named_eq :
    (named args).map (fun arg => (arg.name, arg.value)) = byName (args.map given) := by
  unfold named byName
  rw [map_filterMap, filterMap_map]
  have hzip (place : Nat) : (args.zipIdx place).filterMap (fun item =>
      (item.1.namedArgument?.map fun x : Text × Text => (⟨item.2, x.1, x.2⟩ : NamedArgument)).map
        fun arg => (arg.name, arg.value)) =
      args.filterMap fun arg => arg.namedArgument? := by
    induction args generalizing place with
    | nil => rfl
    | cons arg args ih =>
      rw [zipIdx_cons, filterMap_cons, filterMap_cons, ih]
      cases arg.namedArgument? <;> rfl
  refine (hzip 0).trans (congrArg (List.filterMap · args) (funext fun arg => ?_))
  unfold given
  cases h : arg.namedArgument? <;> simp [h]

theorem argumentFor_eq (place : Nat) (param : Parameter TypeDesc) :
    argumentFor (positional args) (named args) place param =
      assigned (args.map given) place param := by
  unfold argumentFor assigned
  rw [positional_eq, ← named_eq, find?_map, Option.map_map]
  rfl

/-- The arguments of parameters as they are written: by name after a parameter that is left out and
may be. -/
def writtenFrom (isNamed : Bool) : List (Parameter TypeDesc × Option Text) → List Given
  | [] => []
  | (param, some value) :: rest =>
    (if isNamed then some param.name else none, value) :: writtenFrom isNamed rest
  | (param, none) :: rest => writtenFrom (isNamed || param.defaultable) rest

/-- Some parameter is left out and may be. -/
def skips (bound : List (Parameter TypeDesc × Option Text)) : Bool :=
  bound.any fun item => item.1.defaultable && item.2.isNone

/-- All arguments of a call as they are written. -/
def written (params : List (Parameter TypeDesc)) (pieces : List Given) : List Given :=
  let bound := rebound params pieces
  let key (name : Text) : Option Text := if skips bound then some name else none
  writtenFrom false bound ++
    (((byPlace pieces).zipIdx.drop params.length).map fun item => (key (placeKey item.2), item.1)) ++
    (strangers params pieces).map fun arg => (key arg.1, arg.2)

/-- The arguments keep their places: the first parameter that is left out may be, or no argument
follows, and arguments of unknown names follow only then. -/
def inPlace (strange : Bool) : List (Parameter TypeDesc × Option Text) → Bool
  | [] => !strange
  | (_, some _) :: rest => inPlace strange rest
  | (param, none) :: rest => param.defaultable || (rest.all (·.2.isNone) && !strange)

def filled (front : List (Parameter TypeDesc × Text)) : List (Parameter TypeDesc × Option Text) :=
  front.map fun item => (item.1, some item.2)

/-- The parameters up to the first one that is left out. -/
theorem inPlace_cases {strange : Bool} (h : inPlace strange bound) :
    ∃ front back, bound = filled front ++ back ∧
      ((back = [] ∧ strange = false) ∨
        (∃ param rest, back = (param, none) :: rest ∧ param.defaultable) ∨
        (back ≠ [] ∧ (∀ item ∈ back, item.2 = none) ∧ strange = false)) := by
  induction bound with
  | nil => exact ⟨[], [], rfl, .inl ⟨rfl, Bool.not_eq_true' _ ▸ h⟩⟩
  | cons item bound ih =>
    obtain ⟨param, value⟩ := item
    cases value with
    | some value =>
      obtain ⟨front, back, rfl, hback⟩ := ih h
      exact ⟨(param, value) :: front, back, rfl, hback⟩
    | none =>
      refine ⟨[], _, rfl, .inr ?_⟩
      unfold inPlace at h
      rw [Bool.or_eq_true, Bool.and_eq_true, all_eq_true, Bool.not_eq_true'] at h
      rcases h with hdefault | ⟨hrest, hstrange⟩
      · exact .inl ⟨param, bound, rfl, hdefault⟩
      · refine .inr ⟨cons_ne_nil _ _, fun item hmem => ?_, hstrange⟩
        rcases mem_cons.mp hmem with rfl | hmem
        · rfl
        · exact Option.isNone_iff_eq_none.mp (hrest item hmem)

theorem writtenFrom_filled (front : List (Parameter TypeDesc × Text))
    (back : List (Parameter TypeDesc × Option Text)) :
    writtenFrom false (filled front ++ back) =
      front.map (fun item => (none, item.2)) ++ writtenFrom false back := by
  induction front with
  | nil => rfl
  | cons item front ih => exact congrArg ((none, item.2) :: ·) ih

theorem writtenFrom_true (bound : List (Parameter TypeDesc × Option Text)) :
    writtenFrom true bound = bound.filterMap fun item => item.2.map fun value =>
      (some item.1.name, value) := by
  induction bound with
  | nil => rfl
  | cons item bound ih =>
    obtain ⟨param, _ | value⟩ := item
    · rw [writtenFrom, Bool.true_or, ih]
      rfl
    · rw [writtenFrom, ih]
      rfl

theorem writtenFrom_none (h : ∀ item ∈ bound, item.2 = none) (isNamed : Bool) :
    writtenFrom isNamed bound = [] := by
  induction bound generalizing isNamed with
  | nil => rfl
  | cons item bound ih =>
    obtain ⟨param, _ | value⟩ := item
    · exact ih (forall_mem_cons.mp h).2 _
    · cases h _ mem_cons_self

/-- If a parameter gets nothing, there are no arguments beyond the last parameter. -/
theorem drop_eq_nil_of_left_out (h : ∃ item ∈ rebound params pieces, item.2 = none) :
    (byPlace pieces).drop params.length = [] := by
  obtain ⟨item, hmem, hnone⟩ := h
  obtain ⟨⟨param, place⟩, hplace, rfl⟩ := mem_map.mp hmem
  have hlt := snd_lt_of_mem_zipIdx hplace
  unfold assigned at hnone
  rw [Option.or_eq_none_iff, List.getElem?_eq_none_iff] at hnone
  exact drop_eq_nil_iff.mpr (by omega)

theorem mem_of_byPlace (h : value ∈ byPlace pieces) : (none, value) ∈ pieces := by
  obtain ⟨⟨_ | name, other⟩, hmem, hvalue⟩ := mem_filterMap.mp h
  · cases hvalue
    exact hmem
  · cases hvalue

theorem mem_of_byName {name : Text} (h : (name, value) ∈ byName pieces) :
    (some name, value) ∈ pieces := by
  obtain ⟨⟨_ | other, value'⟩, hmem, hvalue⟩ := mem_filterMap.mp h
  · cases hvalue
  · cases hvalue
    exact hmem

theorem assigned_of_getElem? {place : Nat} (h : (rebound params pieces)[place]? = some item) :
    assigned pieces place item.1 = item.2 := by
  unfold rebound at h
  rw [getElem?_map, getElem?_zipIdx, Option.map_map] at h
  obtain ⟨param, -, rfl⟩ := Option.map_eq_some_iff.mp h
  simp

theorem assigned_cases {place : Nat} {param : Parameter TypeDesc}
    (h : assigned pieces place param = some value) :
    (place < (byPlace pieces).length ∧ (none, value) ∈ pieces) ∨
      (some param.name, value) ∈ pieces := by
  rcases Option.or_eq_some_iff.mp h with hplace | ⟨-, hname⟩
  · exact .inl ⟨(List.getElem?_eq_some_iff.mp hplace).1,
      mem_of_byPlace (mem_of_getElem? hplace)⟩
  · obtain ⟨⟨name, other⟩, hfind, rfl⟩ := Option.map_eq_some_iff.mp hname
    have hsame : name = param.name := by simpa using find?_some hfind
    exact .inr (mem_of_byName (hsame ▸ mem_of_find?_eq_some hfind))

/-- What is written was given, by name or by place; only what was given by name may be written by
place. -/
theorem mem_written
    (hplaces : inPlace (!(strangers params pieces).isEmpty) (rebound params pieces))
    {piece : Given} (h : piece ∈ written params pieces) :
    piece ∈ pieces ∨ (piece.1 = none ∧ ∃ name, (some name, piece.2) ∈ pieces) := by
  obtain ⟨front, back, hbound, hcases⟩ := inPlace_cases hplaces
  unfold written at h
  rw [mem_append, mem_append, hbound, writtenFrom_filled, mem_append] at h
  rcases h with ((hfront | hback) | hextra) | hstranger
  · obtain ⟨item, hitem, rfl⟩ := mem_map.mp hfront
    obtain ⟨place, hplace⟩ := getElem?_of_mem hitem
    have hget : (rebound params pieces)[place]? = some (item.1, some item.2) := by
      have hlt := (List.getElem?_eq_some_iff.mp hplace).1
      rw [hbound, getElem?_append_left (by rwa [filled, length_map]), filled,
        getElem?_map, hplace]
      rfl
    rcases assigned_cases (assigned_of_getElem? hget) with ⟨-, hmem⟩ | hmem
    · exact .inl hmem
    · exact .inr ⟨rfl, _, hmem⟩
  · rcases hcases with ⟨rfl, -⟩ | ⟨param, rest, rfl, hdefault⟩ | ⟨-, hnone, -⟩
    · cases hback
    · rw [writtenFrom, hdefault, Bool.false_or, writtenFrom_true] at hback
      obtain ⟨item, hitem, hvalue⟩ := mem_filterMap.mp hback
      obtain ⟨value, hsome, rfl⟩ := Option.map_eq_some_iff.mp hvalue
      obtain ⟨place, hplace⟩ := getElem?_of_mem hitem
      -- The places of the parameters after the one left out are all empty.
      have hshort : (byPlace pieces).length ≤ front.length := by
        have hget : (rebound params pieces)[front.length]? = some (param, none) := by
          rw [hbound]
          simp [filled]
        have hnone := assigned_of_getElem? hget
        exact List.getElem?_eq_none_iff.mp (Option.or_eq_none_iff.mp hnone).1
      have hget : (rebound params pieces)[front.length + (place + 1)]? = some item := by
        rw [hbound, getElem?_append_right (by rw [filled, length_map]; omega)]
        simp [filled, hplace]
      have hassigned := (assigned_of_getElem? hget).trans hsome
      rcases assigned_cases hassigned with ⟨hlt, -⟩ | hmem
      · omega
      · exact .inl hmem
    · rw [writtenFrom_none hnone] at hback
      cases hback
  · obtain ⟨item, hitem, rfl⟩ := mem_map.mp hextra
    have hmem : item.1 ∈ byPlace pieces := by
      rw [← zipIdx_map_fst 0 (byPlace pieces)]
      exact mem_map_of_mem (mem_of_mem_drop hitem)
    have hskips : skips (filled front ++ back) = false := by
      refine eq_false_of_ne_true fun hskips => ?_
      obtain ⟨other, hother, hnone⟩ := any_eq_true.mp hskips
      rw [Bool.and_eq_true, Option.isNone_iff_eq_none] at hnone
      have hdrop := drop_eq_nil_of_left_out ⟨other, hbound ▸ hother, hnone.2⟩
      rw [drop_eq_nil_iff] at hdrop
      rw [drop_eq_nil_iff.mpr (by rwa [length_zipIdx])] at hitem
      cases hitem
    rw [hskips]
    exact .inl (mem_of_byPlace hmem)
  · obtain ⟨arg, harg, rfl⟩ := mem_map.mp hstranger
    have hmem := mem_of_byName (mem_filter.mp harg).1
    cases skips (filled front ++ back) with
    | true => exact .inl hmem
    | false => exact .inr ⟨rfl, _, hmem⟩

end Flowchart.Call

namespace Flowchart

namespace Properties

theorem insert_append {key : Text} {held : Properties} (property : Property) (rest : Properties)
    (h : key ∉ held.map Prod.fst) :
    insert key property (held ++ rest) = held ++ insert key property rest := by
  induction held with
  | nil => rfl
  | cons entry held ih =>
    rw [List.map_cons, List.mem_cons, not_or] at h
    rw [List.cons_append, insert, if_neg (Ne.symm h.1), ih h.2]
    rfl

theorem insert_of_not_mem {key : Text} {held : Properties} (property : Property)
    (h : key ∉ held.map Prod.fst) : insert key property held = held ++ [(key, property)] := by
  rw [← List.append_nil held, insert_append _ _ h, List.append_nil]
  rfl

/-- New keys that differ from each other go behind the ones held. -/
theorem insertAll_eq_append {held entries : Properties} (hnodup : (entries.map Prod.fst).Nodup)
    (hfresh : ∀ key ∈ entries.map Prod.fst, key ∉ held.map Prod.fst) :
    insertAll held entries = held ++ entries := by
  induction entries generalizing held with
  | nil => exact (List.append_nil held).symm
  | cons entry entries ih =>
    rw [List.map_cons] at hnodup hfresh
    rw [List.nodup_cons] at hnodup
    rw [insertAll, List.foldl_cons, insert_of_not_mem _ (hfresh _ List.mem_cons_self), ← insertAll,
      ih hnodup.2, List.append_assoc]
    · rfl
    · intro key hkey hmem
      rw [List.map_append, List.mem_append] at hmem
      rcases hmem with hmem | hmem
      · exact hfresh key (List.mem_cons_of_mem _ hkey) hmem
      · exact hnodup.1 (List.mem_singleton.mp hmem ▸ hkey)

end Properties

/-- Steps that each put in at most one property. -/
theorem Draft.foldl_entries {α : Type} {step : Draft → α → Draft}
    {entry : α → Option (Text × Property)} {items : List α}
    (hstep : ∀ draft, ∀ item ∈ items, step draft item = match entry item with
      | some (key, property) => draft.withProperty key property
      | none => draft) (draft : Draft) :
    items.foldl step draft = draft.withProperties (items.filterMap entry) := by
  induction items generalizing draft with
  | nil => rfl
  | cons item items ih =>
    rw [List.foldl_cons, hstep draft item List.mem_cons_self, List.filterMap_cons,
      ih fun draft other hmem => hstep draft other (List.mem_cons_of_mem item hmem)]
    cases entry item <;> rfl

namespace Call

variable {current : Option ModuleName} {symbol : Symbol} {args : List Expr}

/-- The property of a parameter, unless it is left out and has to be given. -/
def parameterEntry (current : Option ModuleName) (item : Parameter TypeDesc × Option Text) :
    Option (Text × Property) :=
  match item.2 with
  | some value => some (item.1.name, Template.parameterProperty current item.1 value)
  | none =>
    if item.1.defaultable then some (item.1.name, Template.parameterProperty current item.1 [])
    else none

def extraEntries (params : List (Parameter TypeDesc)) (pieces : List Given) : Properties :=
  ((byPlace pieces).zipIdx.drop params.length).map fun item =>
    (placeKey item.2, .ofExpression item.1)

def strangerEntries (params : List (Parameter TypeDesc)) (pieces : List Given) : Properties :=
  (strangers params pieces).map fun arg => (arg.1, .ofExpression arg.2)

def entries (current : Option ModuleName) (params : List (Parameter TypeDesc))
    (pieces : List Given) : Properties :=
  (rebound params pieces).filterMap (parameterEntry current) ++
    (extraEntries params pieces ++ strangerEntries params pieces)

/-- The arguments are kept under keys that differ from each other and from those of the structure of
a call. -/
structure Keyed (current : Option ModuleName) (params : List (Parameter TypeDesc))
    (pieces : List Given) : Prop where
  nodup : ((entries current params pieces).map Prod.fst).Nodup
  free : ∀ key ∈ (entries current params pieces).map Prod.fst, Key.callStructure.contains key = false

theorem withParameter_eq {item : Parameter TypeDesc × Nat} (draft : Draft)
    (hfree : ∀ entry, parameterEntry current (item.1, assigned (args.map given) item.2 item.1) =
      some entry → Key.callStructure.contains entry.1 = false) :
    withParameter current (positional args) (named args) draft item =
      match parameterEntry current (item.1, assigned (args.map given) item.2 item.1) with
      | some (key, property) => draft.withProperty key property
      | none => draft := by
  obtain ⟨param, place⟩ := item
  unfold withParameter
  dsimp only at hfree ⊢
  rw [argumentFor_eq]
  generalize assigned (args.map given) place param = value at hfree ⊢
  cases value with
  | some value =>
    have hname : Key.callStructure.contains param.name = false := hfree _ rfl
    dsimp only [parameterEntry]
    rw [if_neg (by rw [hname]; exact Bool.false_ne_true)]
  | none =>
    dsimp only [parameterEntry] at hfree ⊢
    cases hdefault : param.defaultable with
    | true =>
      have hname : Key.callStructure.contains param.name = false := hfree _ (if_pos hdefault)
      rw [if_neg (by rw [hname]; exact Bool.false_ne_true)]
      rfl
    | false => exact ite_self draft

theorem withArguments_eq {draft : Draft} (h : Keyed current symbol.params (args.map given))
    (hdraft : ∀ key ∈ draft.properties.map Prod.fst, Key.callStructure.contains key) :
    withArguments current symbol args draft = { draft with
      properties := draft.properties ++ entries current symbol.params (args.map given) } := by
  obtain ⟨hnodup, hfree⟩ := h
  -- The parameters, then the arguments beyond them, then those of unknown names.
  have hparams (draft : Draft) :
      symbol.params.zipIdx.foldl (withParameter current (positional args) (named args)) draft =
        draft.withProperties
          ((rebound symbol.params (args.map given)).filterMap (parameterEntry current)) := by
    unfold entries rebound at hfree
    unfold rebound
    rw [List.filterMap_map] at hfree ⊢
    refine Draft.foldl_entries (fun draft item hmem => ?_) draft
    refine withParameter_eq draft fun entry hentry => hfree entry.1 ?_
    rw [List.map_append]
    exact List.mem_append_left _
      (List.mem_map_of_mem (List.mem_filterMap.mpr ⟨item, hmem, hentry⟩))
  have hextras (draft : Draft) :
      ((positional args).zipIdx.drop symbol.params.length).foldl withExtra draft =
        draft.withProperties (extraEntries symbol.params (args.map given)) := by
    unfold extraEntries
    rw [← positional_eq, ← List.filterMap_eq_map]
    refine Draft.foldl_entries ?_ draft
    exact fun _ _ _ => rfl
  have hstrangers (draft : Draft) :
      (named args).foldl (withUnknown symbol.params) draft =
        draft.withProperties (strangerEntries symbol.params (args.map given)) := by
    have hentries : strangerEntries symbol.params (args.map given) = (named args).filterMap fun arg =>
        if symbol.params.any (·.name = arg.name) then none
        else some (arg.name, Property.ofExpression arg.value) := by
      unfold strangerEntries strangers
      rw [← named_eq]
      induction named args with
      | nil => rfl
      | cons arg rest ih =>
        rw [List.map_cons, List.filter_cons, List.filterMap_cons]
        cases symbol.params.any (·.name = arg.name) with
        | true => exact ih
        | false => exact congrArg ((arg.name, Property.ofExpression arg.value) :: ·) ih
    unfold entries at hfree
    rw [hentries] at hfree ⊢
    refine Draft.foldl_entries (fun draft arg hmem => ?_) draft
    unfold withUnknown
    by_cases hany : symbol.params.any (·.name = arg.name)
    · simp [hany]
    · have hname : Key.callStructure.contains arg.name = false := by
        refine hfree arg.name (List.mem_map.mpr ⟨_, List.mem_append_right _ (List.mem_append_right _
          (List.mem_filterMap.mpr ⟨arg, hmem, if_neg hany⟩)), rfl⟩)
      rw [if_neg hany, if_neg (by rw [hname]; exact Bool.false_ne_true)]
      simp [hany]
  have hinsert := Properties.insertAll_eq_append hnodup fun key hkey hmem =>
    Bool.false_ne_true ((hfree key hkey).symm.trans (hdraft key hmem))
  unfold withArguments
  dsimp only
  rw [hparams, hextras, hstrangers, ← hinsert]
  simp only [entries, Draft.withProperties, Properties.insertAll, List.foldl_append]

end Call

end Flowchart
