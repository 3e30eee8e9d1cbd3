import Flowchart.Proofs.Enclosing

/-!
Lexical scoping. A parameter is declared for its function, a variable for the block that holds its
declaration, the variable of a loop and the error of a handler for the block they are bound for. An
expression sees the last declaration of a name that stands before it and whose holder the expression
lies in. The table finds this declaration by positions alone: a holder that takes in the start of an
expression contains the expression, unless it ends just there. With such a holder the table sees a
variable out of its block.
-/
namespace Flowchart

open List SourceFile

variable {declaration : Declaration} {file : SourceFile} (table : SymbolTable)

local instance (priority := low) Position.scopeOrder : LinearOrder Position := Position.linearOrder

/-- A variable as the source declares it: its type and name, where it is declared, and the range of
the function or block that it is declared for. -/
structure Declaration where
  typeName : Text
  name : Text
  start : Position
  holder : SourceRange
deriving DecidableEq

namespace Declaration

/-- The declaration stands before the stretch of text, in a function or block around it. -/
def Governs (declaration : Declaration) (range : SourceRange) : Prop :=
  declaration.start ≤ range.start ∧ declaration.holder.contains range = true

instance (declaration : Declaration) (range : SourceRange) :
    Decidable (declaration.Governs range) := inferInstanceAs (Decidable (_ ∧ _))

def entry (resolve : Scope.Resolver) (declaration : Declaration) : VariableEntry :=
  Scope.declared resolve declaration.typeName declaration.name declaration.start
    declaration.holder

end Declaration

/-- The handler binds the error by the declaration, for its own block. -/
def Handler.Binds : Handler → Declaration → Prop
  | .onFail (some (typeName, name)) body, declaration =>
    declaration = ⟨typeName, name, body.range.start, body.range⟩
  | .onFail none _, _ | .nothing, _ => False

/-- The statement of a block with the range `holder` makes the declaration itself, not by a
statement inside of it. -/
def Statement.Introduces (holder : SourceRange) : Statement → Declaration → Prop
  | .varDecl extent _ typeName name _, declaration =>
    declaration = ⟨typeName, name, extent.range.start, holder⟩
  | .each _ typeName name _ body handler, declaration =>
    declaration = ⟨typeName, name, body.range.start, body.range⟩ ∨ handler.Binds declaration
  | .loop _ _ _ handler, declaration | .attempt _ _ handler, declaration
  | .lock _ _ handler, declaration => handler.Binds declaration
  | _, _ => False

/-- The declaration of the error that the handler binds, if it binds one. -/
def Handler.bindings : Handler → List Declaration
  | .onFail (some (typeName, name)) body => [⟨typeName, name, body.range.start, body.range⟩]
  | .onFail none _ | .nothing => []

/-- The declarations that a statement of a block with the range `holder` makes itself. -/
def Statement.introductions (holder : SourceRange) : Statement → List Declaration
  | .varDecl extent _ typeName name _ => [⟨typeName, name, extent.range.start, holder⟩]
  | .each _ typeName name _ body handler =>
    ⟨typeName, name, body.range.start, body.range⟩ :: handler.bindings
  | .loop _ _ _ handler | .attempt _ _ handler | .lock _ _ handler => handler.bindings
  | _ => []

/-- The declarations of the statements that stand directly in the blocks. -/
def Block.declarations (blocks : List Block) : List Declaration :=
  blocks.flatMap fun block => block.statements.flatMap (·.introductions block.range)

/-- The declarations of a function: its parameters and what the blocks in it introduce. -/
def FunctionDef.declarations (function : FunctionDef) : List Declaration :=
  function.params.map (fun param =>
    ⟨param.typeName, param.name, param.range.start, function.range⟩) ++
      Block.declarations (Statement.blocksOfBlock function.body)

/-- A statement that stands directly in one of the blocks makes the declaration. -/
def Block.AnyIntroduces (blocks : List Block) (declaration : Declaration) : Prop :=
  ∃ block ∈ blocks, ∃ statement ∈ block.statements, statement.Introduces block.range declaration

/-- The function makes the declaration, by a parameter or by a statement of a block in it. -/
inductive FunctionDef.Declares (function : FunctionDef) : Declaration → Prop
  | param {param : Param} (h : param ∈ function.params) :
      Declares function ⟨param.typeName, param.name, param.range.start, function.range⟩
  | inside {declaration : Declaration}
      (h : Block.AnyIntroduces (Statement.blocksOfBlock function.body) declaration) :
      Declares function declaration

namespace SourceFile

/-- A function of the file makes the declaration. -/
def Declares (file : SourceFile) (declaration : Declaration) : Prop :=
  ∃ function ∈ file.functions, function.Declares declaration

/-- What a name means at a stretch of the file: the last of the declarations of the name that govern
the stretch, or nothing if there is none. -/
inductive Binds (file : SourceFile) (name : Text) (range : SourceRange) : Option Declaration → Prop
  | last {declaration : Declaration} (hdeclares : file.Declares declaration)
      (hname : declaration.name = name) (hgoverns : declaration.Governs range)
      (hlast : ∀ other, file.Declares other → other.name = name → other.Governs range →
        other.start ≤ declaration.start) : Binds file name range (some declaration)
  | nothing (h : ∀ declaration, file.Declares declaration → declaration.name = name →
      ¬ declaration.Governs range) : Binds file name range none

end SourceFile

theorem Handler.mem_bindings (handler : Handler) :
    declaration ∈ handler.bindings ↔ handler.Binds declaration := by
  rcases handler with _ | ⟨_ | binding, body⟩ <;> simp [bindings, Binds]

theorem Statement.mem_introductions (holder : SourceRange) (statement : Statement) :
    declaration ∈ statement.introductions holder ↔ statement.Introduces holder declaration := by
  cases statement <;> simp [introductions, Introduces, Handler.mem_bindings]

theorem FunctionDef.mem_declarations {function : FunctionDef} :
    declaration ∈ function.declarations ↔ function.Declares declaration := by
  have hinside : declaration ∈ Block.declarations (Statement.blocksOfBlock function.body) ↔
      Block.AnyIntroduces (Statement.blocksOfBlock function.body) declaration := by
    simp only [Block.declarations, Block.AnyIntroduces, mem_flatMap, Statement.mem_introductions]
  rw [declarations, mem_append, mem_map, hinside]
  constructor
  · rintro (⟨param, hparam, rfl⟩ | h)
    · exact .param hparam
    · exact .inside h
  · rintro (hparam | h)
    · exact Or.inl ⟨_, hparam, rfl⟩
    · exact Or.inr h

theorem Block.declarations_append (blocks more : List Block) :
    declarations (blocks ++ more) = declarations blocks ++ declarations more := flatMap_append

namespace Scope

open Statement Block

variable {resolve : Resolver}

theorem held_perm {body : Block} {handler : Handler}
    (hbody : ofBlock resolve body ~ (declarations (blocksOfBlock body)).map (Declaration.entry resolve))
    (hhandler : ofHandler resolve handler ~
      (handler.bindings ++ declarations (blocksOfHandler handler)).map (Declaration.entry resolve)) :
    ofBlock resolve body ++ ofHandler resolve handler ~ (handler.bindings ++
      declarations (blocksOfBlock body ++ blocksOfHandler handler)).map
        (Declaration.entry resolve) := by
  refine (hbody.append hhandler).trans ?_
  rw [declarations_append, ← map_append]
  exact (perm_append_comm_assoc _ _ _).map _

mutual

/-- The variables of a statement are those that it or a statement inside of it declares. -/
theorem ofStatement_perm : ∀ (scope : SourceRange) (statement : Statement),
    ofStatement resolve scope statement ~ (statement.introductions scope ++
      declarations statement.blocks).map (Declaration.entry resolve)
  | scope, .varDecl .. => Perm.refl _
  | scope, .each _ _ _ _ body handler =>
    (held_perm (ofBlock_perm body) (ofHandler_perm handler)).cons _
  | scope, .cond _ _ body otherwise => by
    rw [blocks, declarations_append, map_append, map_append]
    exact (ofBlock_perm body).append (ofOtherwise_perm otherwise)
  | scope, .loop _ _ body handler | scope, .attempt _ body handler | scope, .lock _ body handler =>
    held_perm (ofBlock_perm body) (ofHandler_perm handler)
  | scope, .assign .. | scope, .ret .. | scope, .exitLoop _ | scope, .nextRound _
  | scope, .panic .. | scope, .fail .. | scope, .expression .. | scope, .comment ..
  | scope, .invalid _ => Perm.refl _

theorem ofOtherwise_perm : ∀ otherwise : Otherwise,
    ofOtherwise resolve otherwise ~
      (declarations (blocksOfOtherwise otherwise)).map (Declaration.entry resolve)
  | .nothing => Perm.refl _
  | .cond _ _ body otherwise => by
    rw [blocksOfOtherwise, declarations_append, map_append]
    exact (ofBlock_perm body).append (ofOtherwise_perm otherwise)
  | .block body => ofBlock_perm body

theorem ofHandler_perm : ∀ handler : Handler,
    ofHandler resolve handler ~ (handler.bindings ++
      declarations (blocksOfHandler handler)).map (Declaration.entry resolve)
  | .nothing => Perm.refl _
  | .onFail none body => ofBlock_perm body
  | .onFail (some _) body => (ofBlock_perm body).cons _

theorem ofBlock_perm : ∀ block : Block,
    ofBlock resolve block ~
      (declarations (blocksOfBlock block)).map (Declaration.entry resolve)
  | .mk held statements => ofStatements_perm held.range statements

theorem ofStatements_perm : ∀ (scope : SourceRange) (statements : List Statement),
    ofStatements resolve scope statements ~ (statements.flatMap (·.introductions scope) ++
      declarations (blocksOfAll statements)).map (Declaration.entry resolve)
  | scope, [] => Perm.refl _
  | scope, statement :: rest => by
    refine ((ofStatement_perm scope statement).append (ofStatements_perm scope rest)).trans ?_
    rw [blocksOfAll, declarations_append, flatMap_cons, ← map_append, append_assoc, append_assoc]
    exact ((perm_append_comm_assoc _ _ _).append_left _).map _

end

theorem ofFunction_perm (function : FunctionDef) :
    ofParams resolve function ++ ofBlock resolve function.body ~
      function.declarations.map (Declaration.entry resolve) := by
  rw [FunctionDef.declarations, map_append, map_map]
  exact (ofBlock_perm function.body).append_left _

end Scope

namespace Statement

theorem mem_blocksOfBlock_self (block : Block) : block ∈ blocksOfBlock block := by
  obtain ⟨held, statements⟩ := block
  exact mem_cons_self

theorem blocks_subset_blocksOfAll {statement : Statement} {statements : List Statement}
    (h : statement ∈ statements) : statement.blocks ⊆ blocksOfAll statements := by
  induction statements with
  | nil => cases h
  | cons first rest ih =>
    rcases mem_cons.mp h with rfl | h
    · exact subset_append_left _ _
    · exact subset_append_of_subset_right _ (ih h)

/-- The blocks of a statement that stands in one of the blocks are among the blocks. -/
def Closed (within : List Block) : Prop :=
  ∀ block ∈ within, ∀ statement ∈ block.statements, statement.blocks ⊆ within

theorem Closed.append {first second : List Block} (hfirst : Closed first)
    (hsecond : Closed second) : Closed (first ++ second) := by
  intro block hblock statement hstatement
  rcases mem_append.mp hblock with hblock | hblock
  · exact subset_append_of_subset_left _ (hfirst block hblock statement hstatement)
  · exact subset_append_of_subset_right _ (hsecond block hblock statement hstatement)

theorem Closed.nil : Closed [] := fun _ hblock => absurd hblock not_mem_nil

mutual

theorem blocks_closed : ∀ statement : Statement, Closed statement.blocks
  | .cond _ _ body otherwise => (blocksOfBlock_closed body).append (blocksOfOtherwise_closed otherwise)
  | .loop _ _ body handler | .each _ _ _ _ body handler | .attempt _ body handler
  | .lock _ body handler => (blocksOfBlock_closed body).append (blocksOfHandler_closed handler)
  | .varDecl .. | .assign .. | .ret .. | .exitLoop _ | .nextRound _ | .panic .. | .fail ..
  | .expression .. | .comment .. | .invalid _ => .nil

theorem blocksOfOtherwise_closed : ∀ otherwise : Otherwise, Closed (blocksOfOtherwise otherwise)
  | .nothing => .nil
  | .cond _ _ body otherwise => (blocksOfBlock_closed body).append (blocksOfOtherwise_closed otherwise)
  | .block body => blocksOfBlock_closed body

theorem blocksOfHandler_closed : ∀ handler : Handler, Closed (blocksOfHandler handler)
  | .nothing => .nil
  | .onFail _ body => blocksOfBlock_closed body

theorem blocksOfBlock_closed : ∀ block : Block, Closed (blocksOfBlock block)
  | .mk held statements => by
    intro block hblock statement hstatement
    rcases mem_cons.mp hblock with rfl | hblock
    · exact subset_cons_of_subset _ (blocks_subset_blocksOfAll hstatement)
    · exact subset_cons_of_subset _
        (blocksOfAll_closed statements block hblock statement hstatement)

theorem blocksOfAll_closed : ∀ statements : List Statement, Closed (blocksOfAll statements)
  | [] => .nil
  | first :: rest => (blocks_closed first).append (blocksOfAll_closed rest)

end

end Statement

theorem Handler.Binds.holder_mem {handler : Handler} (h : handler.Binds declaration) :
    ∃ body ∈ Statement.blocksOfHandler handler, declaration.holder = body.range := by
  cases handler with
  | nothing => cases h
  | onFail binding body =>
    obtain _ | ⟨typeName, name⟩ := binding
    · cases h
    · exact ⟨body, Statement.mem_blocksOfBlock_self body, congrArg Declaration.holder h⟩

/-- A statement declares for the block that holds it, or for a block of its own. -/
theorem Statement.Introduces.holder_mem {scope : SourceRange} {statement : Statement}
    (h : statement.Introduces scope declaration) :
    declaration.holder = scope ∨ ∃ body ∈ statement.blocks, declaration.holder = body.range := by
  have hbound {body : Block} {handler : Handler} (hbinds : handler.Binds declaration) :
      ∃ inner ∈ blocksOfBlock body ++ blocksOfHandler handler,
        declaration.holder = inner.range := by
    obtain ⟨inner, hmem, hholder⟩ := hbinds.holder_mem
    exact ⟨inner, mem_append_right _ hmem, hholder⟩
  cases statement with
  | varDecl => exact Or.inl (congrArg Declaration.holder h)
  | each _ _ _ _ body handler =>
    right
    rcases h with h | hbinds
    · exact ⟨body, mem_append_left _ (mem_blocksOfBlock_self body),
        congrArg Declaration.holder h⟩
    · exact hbound hbinds
  | loop | attempt | lock =>
    right
    exact hbound h
  | _ => cases h

theorem FunctionDef.Declares.holder_mem {function : FunctionDef} (h : function.Declares declaration) :
    declaration.holder ∈ function.frames := by
  cases h with
  | param _ => exact mem_cons_self
  | inside h =>
    obtain ⟨block, hblock, statement, hstatement, hintroduces⟩ := h
    refine mem_cons_of_mem _ ?_
    rcases hintroduces.holder_mem with hholder | ⟨body, hbody, hholder⟩
    · exact hholder ▸ mem_map_of_mem hblock
    · exact hholder ▸ mem_map_of_mem
        (Statement.blocksOfBlock_closed function.body block hblock statement hstatement hbody)

namespace SymbolTable

theorem foldl_withImport_vars (imports : List Import) :
    (imports.foldl withImport table).vars = table.vars := by
  induction imports generalizing table with
  | nil => rfl
  | cons first rest ih => exact ih _

/-- Functions add the variables that they declare and leave the qualifiers. -/
theorem foldl_withFunctionDef (resolve : Scope.Resolver) (table : SymbolTable)
    (functions : List FunctionDef) :
    (functions.foldl (withFunctionDef resolve) table).qualifiers = table.qualifiers ∧
      (functions.foldl (withFunctionDef resolve) table).vars ~ table.vars ++
        (functions.flatMap FunctionDef.declarations).map (Declaration.entry resolve) := by
  induction functions generalizing table with
  | nil => exact ⟨rfl, by simp⟩
  | cons first rest ih =>
    obtain ⟨hqualifiers, hvars⟩ := ih (withFunctionDef resolve table first)
    refine ⟨hqualifiers, hvars.trans ?_⟩
    rw [flatMap_cons, map_append, ← append_assoc]
    exact ((Scope.ofFunction_perm first).append_left _).append_right _

theorem module?_withFile (file : SourceFile) :
    (table.withFile file).module? = (file.imports.foldl withImport table).module? := by
  funext qualifier
  rw [module?, module?, withFile, (foldl_withFunctionDef _ _ _).1]

/-- A file adds one variable for each parameter of its functions, for the function, and one for each
declaration, loop variable and bound error that stands directly in a block at any depth, for the
block that holds it or that it is bound for. It adds no other variable. -/
theorem withFile_collects (table : SymbolTable) (file : SourceFile) :
    (table.withFile file).vars ~ table.vars ++
      (file.functions.flatMap FunctionDef.declarations).map
        (Declaration.entry (table.withFile file).module?) := by
  rw [module?_withFile, ← foldl_withImport_vars table file.imports]
  exact (foldl_withFunctionDef _ _ _).2

def ofFile (file : SourceFile) : SymbolTable := ({} : SymbolTable).withFile file

theorem mem_ofFile {entry : VariableEntry} :
    entry ∈ (ofFile file).vars ↔ ∃ declaration, file.Declares declaration ∧
      declaration.entry (ofFile file).module? = entry := by
  rw [ofFile, module?_withFile, withFile, (foldl_withFunctionDef _ _ _).2.mem_iff,
    foldl_withImport_vars, nil_append, mem_map]
  simp only [mem_flatMap, FunctionDef.mem_declarations, SourceFile.Declares]

theorem foldl_later (best : VariableEntry) (entries : List VariableEntry) :
    ∃ entry ∈ best :: entries, entries.foldl later (some best) = some entry ∧
      ∀ other ∈ best :: entries, other.declaredAt ≤ entry.declaredAt := by
  induction entries generalizing best with
  | nil => exact ⟨best, mem_cons_self, rfl, by simp⟩
  | cons first rest ih =>
    rw [foldl_cons, later]
    split
    · next hle =>
      obtain ⟨entry, hmem, hfold, hlast⟩ := ih first
      refine ⟨entry, mem_cons_of_mem _ hmem, hfold, forall_mem_cons.mpr ⟨?_, hlast⟩⟩
      exact hle.trans (hlast first mem_cons_self)
    · next hlt =>
      obtain ⟨entry, hmem, hfold, hlast⟩ := ih best
      obtain ⟨hbest, hrest⟩ := forall_mem_cons.mp hlast
      have hfirst : first.declaredAt ≤ entry.declaredAt := (le_of_not_ge hlt).trans hbest
      refine ⟨entry, ?_, hfold, forall_mem_cons.mpr
        ⟨hbest, forall_mem_cons.mpr ⟨hfirst, hrest⟩⟩⟩
      exact cons_subset_cons best (subset_cons_self first rest) hmem

/-- The variable bound to a name is the last declared of those that can be seen. -/
theorem bound?_cases (name : Text) (p : Position) :
    (table.bound? name p = none ∧
        ∀ entry ∈ table.vars, entry.name = name → entry.isVisibleAt p = false) ∨
      ∃ entry ∈ table.vars, table.bound? name p = some entry ∧ entry.name = name ∧
        entry.isVisibleAt p ∧ ∀ other ∈ table.vars, other.name = name →
          other.isVisibleAt p → other.declaredAt ≤ entry.declaredAt := by
  have hseen (entry : VariableEntry) : entry ∈ table.vars.filter
      (fun entry => entry.name = name && entry.isVisibleAt p) ↔
        entry ∈ table.vars ∧ entry.name = name ∧ entry.isVisibleAt p := by
    rw [mem_filter, Bool.and_eq_true, decide_eq_true_eq]
  cases hfilter : table.vars.filter fun entry => entry.name = name && entry.isVisibleAt p with
  | nil =>
    left
    refine ⟨by rw [bound?, hfilter]; rfl, fun entry hmem hname => ?_⟩
    rw [hfilter] at hseen
    by_contra hvisible
    cases (hseen entry).mpr ⟨hmem, hname, Bool.eq_true_of_not_eq_false hvisible⟩
  | cons first rest =>
    right
    rw [hfilter] at hseen
    obtain ⟨entry, hentry, hfold, hlast⟩ := foldl_later first rest
    obtain ⟨hmem, hname, hvisible⟩ := (hseen entry).mp hentry
    refine ⟨entry, hmem, by rw [bound?, hfilter]; exact hfold, hname, hvisible, ?_⟩
    exact fun other hother hsame hsees => hlast other ((hseen other).mpr ⟨hother, hsame, hsees⟩)

end SymbolTable

namespace Expr

/-- The name that an expression is looked up by: the client of a call of a method, or the text of
what is not a call. -/
def referent? : Expr → Option Text
  | .call _ (.remote target _) _ | .call _ (.resource target _ _) _ => some target
  | .other extent => some (Text.trim extent.source)
  | .call _ (.function ..) _ | .check .. => none

end Expr

namespace SymbolTable

theorem bound?_alone (name : Text) (p : Position) :
    ({ table with vars := (table.bound? name p).toList } : SymbolTable).bound? name p =
      table.bound? name p := by
  rcases bound?_cases table name p with ⟨hnone, -⟩ | ⟨entry, -, hsome, hname, hvisible, -⟩
  · rw [hnone]
    rfl
  · rw [hsome, bound?, Option.toList_some, filter_cons_of_pos (by simp [hname, hvisible])]
    rfl

/-- An expression that is looked up by a name has the meaning that the variable bound to the name
gives it. -/
theorem resolve?_alone {e : Expr} {name : Text} (h : e.referent? = some name) :
    ({ table with vars := (table.bound? name e.range.start).toList } : SymbolTable).resolve? e =
      table.resolve? e := by
  have halone := table.bound?_alone name e.range.start
  cases e with
  | check => cases h
  | other extent =>
    cases h
    exact congrArg _ halone
  | call extent callee args =>
    cases callee with
    | function => cases h
    | remote target method | resource target path method =>
      cases h
      exact congrArg (· >>= _) halone

/-- A declaration is visible from an expression if it governs it, unless the function or block that
it is declared for ends where the expression starts. -/
theorem isVisibleAt_iff {src : Source} {e : Expr} (resolve : Scope.Resolver)
    (hread : read src = .ok file) (he : e ∈ file.expressions)
    (hdeclares : file.Declares declaration) (hapart : declaration.holder.stop ≠ e.range.start) :
    (declaration.entry resolve).isVisibleAt e.range.start ↔
      declaration.Governs e.range := by
  obtain ⟨low, high, harranged⟩ := read_arranged hread
  obtain ⟨function, hfunction, hmakes⟩ := hdeclares
  have hframe : declaration.holder ∈ file.functions.flatMap FunctionDef.frames :=
    mem_flatMap.mpr ⟨function, hfunction, hmakes.holder_mem⟩
  have hproper := (harranged.expression e he).proper
  have hvisible : (declaration.entry resolve).isVisibleAt e.range.start ↔
      declaration.start ≤ e.range.start ∧ declaration.holder.start ≤ e.range.start ∧
        e.range.start ≤ declaration.holder.stop := by
    rw [VariableEntry.isVisibleAt, Bool.and_eq_true, decide_eq_true_iff]
    exact and_congr_right fun _ => decide_eq_true_iff
  rw [hvisible]
  refine and_congr_right fun _ => ⟨?_, fun hcontains => ?_⟩
  · rintro ⟨hstart, hstop⟩
    exact harranged.contains_of_start hframe he hstart (lt_of_le_of_ne hstop hapart.symm)
  · obtain ⟨-, hstart, hstop⟩ := SourceRange.contains_iff.mp hcontains
    exact ⟨hstart, by order⟩

/-- Lexical scoping. The name of a call of a method, or of a variable, is bound to the last of the
declarations that govern the expression, and to nothing if there is none; no other variable has a
part in what the expression means. -/
theorem bound?_lexical {src : Source} {file : SourceFile} {e : Expr} {name : Text}
    (hread : read src = .ok file) (he : e ∈ file.expressions)
    (hname : e.referent? = some name)
    (hapart : ∀ declaration, file.Declares declaration → declaration.name = name →
      declaration.holder.stop ≠ e.range.start) :
    (∃ found, file.Binds name e.range found ∧
      (ofFile file).bound? name e.range.start =
        found.map (Declaration.entry (ofFile file).module?)) ∧
    (ofFile file).resolve? e =
      { ofFile file with vars := ((ofFile file).bound? name e.range.start).toList }.resolve? e := by
  refine ⟨?_, (resolve?_alone _ hname).symm⟩
  have hsees (declaration : Declaration) (hdeclares : file.Declares declaration)
      (hsame : declaration.name = name) :=
    isVisibleAt_iff (ofFile file).module? hread he hdeclares (hapart declaration hdeclares hsame)
  rcases bound?_cases (ofFile file) name e.range.start with
    ⟨hnone, hunseen⟩ | ⟨entry, hmem, hsome, hentry, hvisible, hlast⟩
  · refine ⟨none, .nothing fun declaration hdeclares hsame hgoverns => ?_, hnone⟩
    have hhidden := hunseen _ (mem_ofFile.mpr ⟨declaration, hdeclares, rfl⟩) hsame
    rw [(hsees declaration hdeclares hsame).mpr hgoverns] at hhidden
    cases hhidden
  · obtain ⟨declaration, hdeclares, rfl⟩ := mem_ofFile.mp hmem
    refine ⟨some declaration, .last hdeclares hentry
      ((hsees declaration hdeclares hentry).mp hvisible) ?_, hsome⟩
    intro other hother hsame hgoverns
    exact hlast _ (mem_ofFile.mpr ⟨other, hother, rfl⟩) hsame
      ((hsees other hother hsame).mpr hgoverns)

/-- For each expression of a file, the name it is looked up by, where it starts, and where the
variable that is bound to the name there is declared. -/
def sights (file : SourceFile) : List (Option Text × Position × Option Position) :=
  file.expressions.map fun e => (e.referent?, e.range.start,
    e.referent?.bind fun name => ((ofFile file).bound? name e.range.start).map (·.declaredAt))

theorem exists_of_sights {index : Nat} {name : Text} {start : Position} {declared : Option Position}
    (h : (sights file)[index]? = some (some name, start, declared)) :
    ∃ e, file.expressions[index]? = some e ∧ e.referent? = some name ∧ e.range.start = start ∧
      ((ofFile file).bound? name e.range.start).map (·.declaredAt) = declared := by
  rw [sights, getElem?_map] at h
  obtain ⟨e, he, hsight⟩ := Option.map_eq_some_iff.mp h
  simp only [Prod.mk.injEq] at hsight
  obtain ⟨hname, hstart, hdeclared⟩ := hsight
  rw [hname] at hdeclared
  exact ⟨e, he, hname, hstart, hdeclared⟩

/-- Where the scopes of a file's variables of a name end. -/
def ends (file : SourceFile) (name : Text) : List (Option Position) :=
  ((ofFile file).vars.filter (·.name = name)).map (·.scope.map (·.stop))

theorem stop_mem_ends (h : file.Declares declaration) :
    some declaration.holder.stop ∈ ends file declaration.name :=
  mem_map.mpr ⟨_, mem_filter.mpr ⟨mem_ofFile.mpr ⟨declaration, h, rfl⟩,
    decide_eq_true rfl⟩, rfl⟩

/-- A variable of an inner block hides a parameter inside the block and not behind it. -/
theorem bound?_lexical_shadowed :
    ∃ src file inner outer, src.text =
        ("function f(string x) \x7b do \x7b int x = 1; g(x); \x7d x; \x7d" : Text) ∧
      read src = .ok file ∧ file.expressions[2]? = some inner ∧
      file.expressions[3]? = some outer ∧
      (∃ found, file.Binds "x" inner.range (some found) ∧ found.start = ⟨0, 28⟩) ∧
      ∃ found, file.Binds "x" outer.range (some found) ∧ found.start = ⟨0, 11⟩ := by
  let src : Source :=
    ⟨"m", "function f(string x) \x7b do \x7b int x = 1; g(x); \x7d x; \x7d"⟩
  obtain ⟨file, hread, hinner, houter, hends⟩ := Except.exists_ok (read src) (fun file =>
    (sights file)[2]? = some (some ("x" : Text), ⟨0, 41⟩, some ⟨0, 28⟩) ∧
    (sights file)[3]? = some (some ("x" : Text), ⟨0, 47⟩, some ⟨0, 11⟩) ∧
    ends file "x" = [some ⟨0, 51⟩, some ⟨0, 46⟩]) (by decide +kernel)
  have hbinds {index : Nat} {start declared : Position} {e : Expr}
      (he : file.expressions[index]? = some e) (hname : e.referent? = some "x")
      (hstart : e.range.start = start) (hbehind : some start ∉ ends file "x")
      (hbound : ((ofFile file).bound? "x" e.range.start).map (·.declaredAt) = some declared) :
      ∃ found, file.Binds "x" e.range (some found) ∧ found.start = declared := by
    obtain ⟨⟨found, hfound, heq⟩, -⟩ := bound?_lexical hread (mem_of_getElem? he) hname
      fun declaration hdeclares hsame hstop =>
        hbehind (hstart ▸ hstop ▸ hsame ▸ stop_mem_ends hdeclares)
    rw [heq, Option.map_map] at hbound
    obtain ⟨declaration, rfl, hat⟩ := Option.map_eq_some_iff.mp hbound
    exact ⟨declaration, hfound, hat⟩
  obtain ⟨inner, hat, hname, hstart, hbound⟩ := exists_of_sights hinner
  obtain ⟨outer, hat', hname', hstart', hbound'⟩ := exists_of_sights houter
  exact ⟨src, file, inner, outer, rfl, hread, hat, hat',
    hbinds hat hname hstart (by rw [hends]; decide) hbound,
    hbinds hat' hname' hstart' (by rw [hends]; decide) hbound'⟩

/-- Just behind a block its variables can still be seen. -/
theorem bound?_lexical_behind :
    ∃ src file e name, src.text =
        ("function f(string x) \x7b do \x7b int x = 1; \x7dx; \x7d" : Text) ∧
      read src = .ok file ∧ file.diagnostics.length = 0 ∧ e ∈ file.expressions ∧
      e.referent? = some name ∧
      ¬ ∃ found, file.Binds name e.range found ∧ (ofFile file).bound? name e.range.start =
        found.map (Declaration.entry (ofFile file).module?) := by
  let src : Source := ⟨"m", "function f(string x) \x7b do \x7b int x = 1; \x7dx; \x7d"⟩
  obtain ⟨file, hread, hclean, e, he, hname, hbound⟩ := Except.exists_ok (read src)
    (fun file => file.diagnostics.length = 0 ∧ ∃ e ∈ file.expressions,
      e.referent? = some ("x" : Text) ∧ ((ofFile file).bound? "x" e.range.start).any fun entry =>
        entry.scope.any fun scope => !scope.contains e.range) (by decide +kernel)
  obtain ⟨entry, hentry, hscope⟩ := (Option.any_eq_true _ _).mp hbound
  refine ⟨src, file, e, "x", rfl, hread, hclean, he, hname, ?_⟩
  rintro ⟨found, hbinds, heq⟩
  rw [hentry] at heq
  cases hbinds with
  | nothing => cases heq
  | last _ _ hgoverns _ =>
    cases heq
    simp [Declaration.entry, Scope.declared, hgoverns.2] at hscope

end SymbolTable

end Flowchart
