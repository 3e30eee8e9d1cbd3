import Flowchart.Proofs.Placing

/-!
Declarations of a file. All that is read before the body of a function takes lexemes and leaves the
log alone, so reading a file goes from the body of one function to the body of the next.
-/
namespace Flowchart

open Reader StatementReader

variable {α β : Type} {src : Source} {x : Reader α}

theorem Reader.ite_bind {test : Prop} [Decidable test] (x y : Reader α) (f : α → Reader β) :
    (if test then x else y) >>= f = if test then x >>= f else y >>= f := by
  split
  · rfl
  · rfl

namespace FileReader

open Reader

variable {c c' : Cursor} {functions : List FunctionDef}

/-- The reader takes some lexemes and leaves the others. -/
def Taking {α : Type} (read : Reader α) : Prop :=
  ∀ c a c', read c = .ok a c' → ∃ taken, c.Takes taken c'

theorem taking_bind {f : α → Reader β} (hx : Taking x) (hf : ∀ a, Taking (f a)) :
    Taking (x >>= f) := by
  intro c b c' h
  obtain ⟨a, next, ha, hb⟩ := bind_eq_ok h
  obtain ⟨taken, htaken⟩ := hx c a next ha
  obtain ⟨more, hmore⟩ := hf a next b c' hb
  exact ⟨taken ++ more, htaken.trans hmore⟩

theorem taking_pure (a : α) : Taking (pure a : Reader α) := by
  intro c b c' h
  cases h
  exact ⟨[], .refl c⟩

theorem taking_get : Taking (get : Reader Cursor) := by
  intro c b c' h
  cases h
  exact ⟨[], .refl _⟩

theorem taking_map (g : α → β) (hx : Taking x) : Taking (g <$> x) := by
  intro c b c' h
  obtain ⟨a, ha, -⟩ := map_eq_ok h
  exact hx c a c' ha

theorem taking_expect (src : Source) (text : Text) : Taking (expect src text) := by
  intro c token c' h
  obtain ⟨-, comments, htakes⟩ := expect_eq_ok h
  exact ⟨_, htakes⟩

theorem taking_expectWord (src : Source) : Taking (expectWord src) := by
  intro c token c' h
  obtain ⟨-, comments, htakes⟩ := expectWord_eq_ok h
  exact ⟨_, htakes⟩

theorem taking_eat (text : Text) : Taking (eat text) := by
  intro c found c' h
  rcases eat_eq_ok h with ⟨-, comments, token, -, htakes⟩ | ⟨-, rfl, -⟩
  · exact ⟨_, htakes⟩
  · exact ⟨[], .refl _⟩

theorem taking_type (src : Source) : Taking (TypeText.read src) := by
  intro c typeName c' h
  obtain ⟨taken, htakes, -⟩ := TypeText.read_eq_ok h
  exact ⟨taken, htakes⟩

theorem taking_failAtEnd (src : Source) (fault : SyntaxFault) :
    Taking (failAtEnd src fault : Reader α) := by
  intro c a c' h
  cases h

theorem taking_dottedTail (src : Source) (stop : Mark) (bound : Nat) :
    Taking (dottedTail src stop bound) := by
  induction bound generalizing stop with
  | zero => exact taking_failAtEnd src .tooDeep
  | succ bound ih =>
    refine taking_bind (taking_eat _) fun found => ?_
    split
    · exact taking_bind (taking_expectWord src) fun part => ih part.stop
    · exact taking_pure stop

theorem taking_importDecl (src : Source) : Taking (importDecl src) := by
  refine taking_bind (taking_expect src _) fun keyword => ?_
  refine taking_bind (taking_expectWord src) fun org => ?_
  refine taking_bind (taking_expect src _) fun slash => ?_
  refine taking_bind (taking_expectWord src) fun first => ?_
  refine taking_bind taking_get fun cursor => ?_
  refine taking_bind (taking_dottedTail src _ _) fun stop => ?_
  refine taking_bind (taking_expect src _) fun semicolon => ?_
  exact taking_pure _

theorem taking_params (src : Source) (bound : Nat) : Taking (params src bound) := by
  induction bound with
  | zero => exact taking_failAtEnd src .tooDeep
  | succ bound ih =>
    refine taking_bind taking_get fun cursor => ?_
    refine taking_bind (taking_type src) fun typeName => ?_
    refine taking_bind (taking_expectWord src) fun name => ?_
    refine taking_bind (taking_eat _) fun found => ?_
    split
    · exact taking_bind ih fun more => taking_pure _
    · exact taking_pure _

/-- The parameters of a function, up to the closing parenthesis. -/
def parameters (src : Source) : Reader (List Param) := do
  if (← get).at? ")" then pure [] else params src ((← get).rest.length + 1)

/-- The return type that may follow the parameters. -/
def returned (src : Source) : Reader (Option Text) := do
  if ← eat "returns" then some <$> TypeText.read src else pure none

/-- A function in its parts: keyword and name, parameters, return type and body. -/
theorem functionDef_eq (src : Source) : functionDef src = (do
    let keyword ← expect src "function"
    let name ← expectWord src
    let _ ← expect src "("
    let params ← parameters src
    let _ ← expect src ")"
    let returnType ← returned src
    let signature := src.extent keyword.start (← get).last
    let body ← block src ((← get).rest.length + 1)
    pure
      { name := name.text
        params := params
        returnType := returnType
        body := body
        range := src.range keyword.start (← get).last
        signature := signature }) := by
  unfold functionDef parameters returned
  simp only [ite_bind, bind_assoc]

theorem taking_parameters (src : Source) : Taking (parameters src) := by
  refine taking_bind taking_get fun cursor => ?_
  split
  · exact taking_pure _
  · exact taking_bind taking_get fun cursor => taking_params src _

theorem taking_returned (src : Source) : Taking (returned src) := by
  refine taking_bind (taking_eat _) fun found => ?_
  split
  · exact taking_map _ (taking_type src)
  · exact taking_pure _

/-- The reader takes some lexemes and then gives a function with the block that follows. The
signature of the function goes from a keyword to the last of these lexemes. -/
def Opening (src : Source) (keyword : Token) (read : Reader FunctionDef) : Prop :=
  ∀ c function c', read c = .ok function c' →
    ∃ taken c₁ depth, c.Takes taken c₁ ∧ function.signature = src.extent keyword.start c₁.last ∧
      block src depth c₁ = .ok function.body c'

theorem opening_bind {keyword : Token} {f : α → Reader FunctionDef} (hx : Taking x)
    (hf : ∀ a, Opening src keyword (f a)) : Opening src keyword (x >>= f) := by
  intro c function c' h
  obtain ⟨a, next, ha, hfunction⟩ := bind_eq_ok h
  obtain ⟨taken, htakes⟩ := hx c a next ha
  obtain ⟨more, c₁, depth, hmore, hsignature, hblock⟩ := hf a next function c' hfunction
  exact ⟨taken ++ more, c₁, depth, htakes.trans hmore, hsignature, hblock⟩

/-- A function is its keyword, the rest of its signature, and a block. -/
theorem functionDef_eq_ok {function : FunctionDef} (h : functionDef src c = .ok function c') :
    ∃ keyword taken c₁ depth, c.Takes (keyword :: taken) c₁ ∧
      function.signature = src.extent keyword.token.start c₁.last ∧
      block src depth c₁ = .ok function.body c' := by
  rw [functionDef_eq] at h
  obtain ⟨keyword, next, hkeyword, h⟩ := bind_eq_ok h
  obtain ⟨-, comments, hfirst⟩ := expect_eq_ok hkeyword
  obtain ⟨taken, c₁, depth, htakes, hsignature, hblock⟩ :=
    opening_bind (taking_expectWord src) (fun name => opening_bind (taking_expect src "(") fun _ =>
      opening_bind (taking_parameters src) fun params => opening_bind (taking_expect src ")") fun _ =>
        opening_bind (taking_returned src) fun returned c function c' h => by
          rw [get_bind, get_bind] at h
          obtain ⟨body, next, hblock, h⟩ := bind_eq_ok h
          cases h
          exact ⟨[], c, _, .refl c, rfl, hblock⟩) next function c' h
  exact ⟨⟨comments, keyword⟩, taken, c₁, depth, hfirst.trans htakes, hsignature, hblock⟩

/-- The functions between two cursors. -/
inductive Declares (src : Source) : List FunctionDef → Cursor → Cursor → Prop
  | done {c : Cursor} : Declares src [] c c
  | skip {functions : List FunctionDef} {taken : List Lexeme} {c c₁ c' : Cursor}
      (htakes : c.Takes taken c₁) (hmore : Declares src functions c₁ c') :
      Declares src functions c c'
  | function {function : FunctionDef} {functions : List FunctionDef} {keyword : Lexeme}
      {taken : List Lexeme} {depth : Nat} {c c₁ c₂ c' : Cursor}
      (htakes : c.Takes (keyword :: taken) c₁)
      (hsignature : function.signature = src.extent keyword.token.start c₁.last)
      (hbody : block src depth c₁ = .ok function.body c₂)
      (hmore : Declares src functions c₂ c') : Declares src (function :: functions) c c'

/-- The functions that are declared are read one after the other, each where a cursor sits. -/
theorem declarations_reads {bound : Nat} {imports : List Import}
    (h : declarations src bound c = .ok (imports, functions) c') :
    Declares src functions c c' ∧ (Sits src c → ∀ function ∈ functions,
      ∃ c₀ c₁, Sits src c₀ ∧ functionDef src c₀ = .ok function c₁) := by
  induction bound generalizing imports functions c with
  | zero => cases h
  | succ bound ih =>
    unfold declarations at h
    rw [get_bind] at h
    cases hpeek : c.peek? with
    | none =>
      rw [hpeek] at h
      cases h
      exact ⟨.done, fun _ => nofun⟩
    | some token =>
      rw [hpeek] at h
      dsimp only at h
      split at h
      · obtain ⟨first, c₁, hfirst, h⟩ := bind_eq_ok h
        obtain ⟨⟨imports', functions'⟩, c₂, hrest, hdone⟩ := bind_eq_ok h
        cases hdone
        obtain ⟨taken, htakes⟩ := taking_importDecl src _ _ _ hfirst
        exact (ih hrest).imp (.skip htakes) fun hall hsits => hall (hsits.takes htakes).1
      split at h
      · obtain ⟨comments, hrest⟩ := Cursor.rest_of_peek? hpeek
        have htakes := Cursor.takes_next hrest
        exact (ih h).imp (.skip htakes) fun hall hsits => hall (hsits.takes htakes).1
      split at h
      · obtain ⟨first, c₁, hfirst, h⟩ := bind_eq_ok h
        obtain ⟨⟨imports', functions'⟩, c₂, hrest, hdone⟩ := bind_eq_ok h
        cases hdone
        obtain ⟨keyword, taken, c₃, depth, htakes, hsignature, hbody⟩ := functionDef_eq_ok hfirst
        refine (ih hrest).imp (.function htakes hsignature hbody) fun hall hsits => ?_
        have hsits₁ := ((hsits.takes htakes).1.reads (block_reads _ _ _ hbody)).1
        exact List.forall_mem_cons.mpr ⟨⟨_, _, hsits, hfirst⟩, hall hsits₁⟩
      · cases h

/-- Each function is read where it stands, its body behind its signature. -/
theorem Declares.place (h : Declares src functions c c') (hsits : Sits src c) :
    ∀ function ∈ functions, ∃ keyword taken c₀ c₁ c₂, Sits src c₀ ∧
      c₀.Takes (keyword :: taken) c₁ ∧ Sits src c₁ ∧
      function.signature = src.extent keyword.token.start c₁.last ∧
      Reads src (.block function.body) c₁ c₂ := by
  induction h with
  | done => exact nofun
  | skip htakes _ ih => exact ih (hsits.takes htakes).1
  | function htakes hsignature hbody _ ih =>
    have hreads := block_reads _ _ _ hbody
    have hsits₁ := (hsits.takes htakes).1
    exact List.forall_mem_cons.mpr ⟨⟨_, _, _, _, _, hsits, htakes, hsits₁, hsignature, hreads⟩,
      ih (hsits₁.reads hreads).1⟩

end FileReader

/-- A file that is read declares its functions from its start to its end. -/
theorem SourceFile.declares_of_read {file : SourceFile} (h : SourceFile.read src = .ok file) :
    ∃ c c', Sits src c ∧ c.log = [] ∧ c'.log = file.diagnostics ∧
      FileReader.declarations src (c.rest.length + 1) c = .ok (file.imports, file.functions) c' ∧
      FileReader.Declares src file.functions c c' := by
  obtain ⟨⟨⟨imports, functions⟩, cursor⟩, hrun, hdone⟩ := Except.bind_eq_ok h
  cases hdone
  obtain ⟨c, hsits, hlog, hread⟩ := FileReader.run_starts hrun
  exact ⟨c, cursor, hsits, hlog, rfl, hread, (FileReader.declarations_reads hread).1⟩

end Flowchart
