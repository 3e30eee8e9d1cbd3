import Flowchart.Proofs.Writing

/-!
The parts of a statement found again. Where the lexemes of a type, an expression, a condition or a
plain statement of a file are spelled again in another text, the same part is found there, and with a
strict likeness it is alike.
-/
namespace Flowchart

open Lexeme Token List ExprReader

variable {rest lexemes taken : List Lexeme}

variable {like : Likeness} {src : Source} {c : Cursor}

/-- Plain statements agree, with a strict likeness when they are alike. -/
def Likeness.Admits (like : Likeness) : Prop :=
  ∀ s s', s.isPlain = true → s'.isPlain = true → (like.strict = true → s.PlainAlike s') →
    like.plain s s'

theorem Likeness.exact_admits : Likeness.exact.Admits := fun _ _ _ _ h => h rfl

theorem Expr.Alike.source {e e' : Expr} (h : e.Alike e') : Text.Alike e.source e'.source := by
  cases e <;> cases e' <;> first | exact h | exact h.1 | exact h.elim

namespace StatementReader

theorem Sits.laid_bare {left : List Lexeme} (h : Sits src c) (hrest : c.rest = lexemes ++ left)
    (hbare : ∀ lexeme ∈ lexemes, lexeme.comments = []) :
    ∃ mark, src.Lays mark (lexemes.map Lexeme.token) := by
  obtain ⟨trailing, hlaid⟩ := h.laid
  rw [hrest, flat_append, append_assoc] at hlaid
  rw [← flat_of_bare hbare]
  exact ⟨_, hlaid.append.1⟩

/-- Lexemes that are spelled as some lexemes of the file are, are alike, and close with a strict
likeness. -/
theorem Sits.close {src' : Source} {c' : Cursor} {lexemes' left left' : List Lexeme}
    (h : Sits src c) (hrest : c.rest = lexemes ++ left) (hfit : Fit like lexemes)
    (h' : Sits src' c') (hrest' : c'.rest = lexemes' ++ left')
    (hspelled : Spelled like lexemes' (spellings lexemes)) :
    Lexeme.Alike lexemes lexemes' ∧ (like.strict → Close src src' lexemes lexemes') := by
  have halike : Lexeme.Alike lexemes lexemes' := by
    refine alike_of_spellings hspelled.spellings.symm fun lexeme hmem => ?_
    exact (h.proper lexeme (hrest ▸ mem_append_left _ hmem)).1
  refine ⟨halike, fun hstrict => ⟨?_, ?_, fun lexeme hmem => (hfit hstrict lexeme hmem).2⟩⟩
  · exact h.laid_bare hrest fun lexeme hmem => (hfit hstrict lexeme hmem).1
  · exact h'.laid_bare hrest' (hspelled.bare hstrict)

/-- The type of a name is found again wherever its lexemes are spelled again. -/
theorem type_found {typed : List Lexeme} {name : Lexeme} {typeName : Text} (hsits : Sits src c)
    (hrest : c.rest = typed ++ name :: rest) (hfit : Fit like typed)
    (htyped : TypeText.Names src typed (name :: rest) typeName) (hname : name.token.isWord) :
    TypeFound like (spellings typed) name.token.text typeName := by
  intro src' c' typed' word rest' hsits' hrest' hspelled hword
  obtain ⟨halike, hclose⟩ := hsits.close hrest hfit hsits' hrest' hspelled
  have hmem : name ∈ c.rest := by rw [hrest]; simp
  have hsame : name.token.Same word.token := by
    refine ⟨?_, (hsits.proper name hmem).1⟩
    rw [hword, Token.spelling_of_isWord hname]
  have hcolon := isColon_of_isWord (hsits.taken name hmem) hname
  obtain ⟨found, hfound, htexts⟩ := htyped.alike src' halike hsame hcolon rest'
  exact ⟨found, hfound, fun hstrict => htexts (hclose hstrict)⟩

theorem expr_found {value : Expr} (hsits : Sits src c) (hrest : c.rest = taken ++ rest)
    (hfit : Fit like taken) (hvalue : Forms src "\x7b" taken value) :
    ExprFound like (spellings taken) (like.exprs value) := by
  intro src' c' taken' rest' hsits' hrest' hspelled
  obtain ⟨halike, hclose⟩ := hsits.close hrest hfit hsits' hrest' hspelled
  obtain ⟨found, hfound, hlike⟩ := hvalue.alike src' (by decide) halike
  exact ⟨found, hfound, fun hstrict => hlike (hclose hstrict)⟩

/-- The spellings of a condition, in parentheses or not. -/
def Enclosed (ks ls : List Spelling) : Prop := ls = ks ∨ ls = mark "(" :: (ks ++ [mark ")"])

/-- A condition is found again where its lexemes are spelled again, in parentheses or not. -/
theorem condition_found {condition : Expr} {ks : List Spelling} (hsits : Sits src c)
    (hrest : c.rest = taken ++ rest) (hfit : Fit like taken)
    (hcondition : Forms src "\x7b" taken condition) (hks : Enclosed (spellings taken) ks) :
    ExprFound like ks (like.conditions condition) := by
  rcases hks with rfl | rfl
  · intro src' c' taken' rest' hsits' hrest' hspelled
    obtain ⟨found, hfound, hlike⟩ :=
      expr_found hsits hrest hfit hcondition src' c' taken' rest' hsits' hrest' hspelled
    refine ⟨found, hfound, fun hstrict => ?_⟩
    obtain ⟨tokens, htokens, htokens'⟩ := (hlike hstrict).source
    exact ⟨tokens, tokens, htokens, htokens', .inl rfl⟩
  · intro src' c' taken' rest' hsits' hrest' hspelled
    obtain ⟨opening, _, rfl, hopening, hbare, hafter⟩ := hspelled.cons
    obtain ⟨inner, _, rfl, hinner, hlast⟩ := hafter.append
    obtain ⟨closing, _, rfl, hclosing, hbare', hnil⟩ := hlast.cons
    obtain rfl := hnil.nil
    have hproper := hsits'.proper opening (by rw [hrest']; simp)
    have hproper' := hsits'.proper closing (by rw [hrest']; simp)
    have hstart : c'.rest = [opening] ++ (inner ++ (closing :: rest')) := by
      rw [hrest']
      simp
    obtain ⟨c₁, -, hrest₁, hsits₁⟩ := hsits'.take hstart
    obtain ⟨halike, -⟩ := hsits.close hrest hfit hsits₁ hrest₁ hinner
    have hpasses : passes "\x7b" 0 (texts (opening :: (inner ++ [closing]))) := by
      have hopens : opening.token.text = "(" :=
        of_decide_eq_true (is_of_spelling hproper.1 hopening (by decide))
      have hcloses : closing.token.text = ")" :=
        of_decide_eq_true (is_of_spelling hproper'.1 hclosing (by decide))
      have htexts : texts (opening :: (inner ++ [closing])) =
          ("(" : Text) :: (texts inner ++ [(")" : Text)]) := by
        simp only [texts, map_cons, map_append, map_nil, hopens, hcloses]
      rw [htexts]
      exact passes_enclosed
        ((passes_alike (by decide) halike).symm.trans hcondition.passes)
    refine ⟨_, ⟨cons_ne_nil _ _, hpasses, rfl⟩, fun hstrict => ?_⟩
    -- Both sources are cut into clean tokens, with the parentheses in the second one only.
    obtain ⟨mark, hlaid⟩ := hsits.laid_bare hrest fun lexeme hmem => (hfit hstrict lexeme hmem).1
    obtain ⟨mark', hlaid'⟩ := hsits'.laid_bare hrest' (hspelled.bare hstrict)
    have hspells := extentOf_spells hlaid (by simpa using hcondition.nonempty)
    have hspells' := extentOf_spells hlaid' (by simp)
    have hclean : ∀ s ∈ spellings taken, s.Clean := by
      intro s hs
      obtain ⟨lexeme, hmem, rfl⟩ := mem_map.mp hs
      exact (hfit hstrict lexeme hmem).2
    have hmap (lexemes : List Lexeme) :
        (lexemes.map Lexeme.token).map Token.spelling = spellings lexemes := map_map ..
    rw [hmap] at hspells hspells'
    rw [hspelled.spellings] at hspells'
    have hclean' : ∀ s ∈ StatementReader.mark "(" :: (spellings taken ++ [StatementReader.mark ")"]),
        s.Clean := by
      intro s hs
      rcases mem_cons.mp hs with rfl | hs
      · exact ⟨by decide, by decide⟩
      rcases mem_append.mp hs with hs | hs
      · exact hclean s hs
      · rw [mem_singleton.mp hs]
        exact ⟨by decide, by decide⟩
    refine ⟨_, _, (congrArg Text.tokens? ?_).trans (Text.tokens?_of_spells hspells hclean),
      (congrArg Text.tokens? ?_).trans (Text.tokens?_of_spells hspells' hclean'), .inr (.inl ?_)⟩
    · rw [hcondition.value, source_ofTokens]
    · rw [source_ofTokens]
    · simp only [map_cons, map_append]
      rfl

/-- The type, the name and the collection of a loop, each at the cursor where it starts. -/
theorem Sits.each_parts {first name word : Lexeme} {typed : List Lexeme} (hsits : Sits src c)
    (hrest : c.rest = first :: (typed ++ name :: word :: taken) ++ rest) :
    ∃ a b d : Cursor, (a.rest = typed ++ name :: word :: (taken ++ rest) ∧ Sits src a) ∧
      (b.rest = name :: word :: (taken ++ rest) ∧ Sits src b) ∧
      d.rest = taken ++ rest ∧ Sits src d := by
  have hstart : c.rest = [first] ++ (typed ++ name :: word :: (taken ++ rest)) := by
    rw [hrest]
    simp
  obtain ⟨a, -, hresta, hsitsa⟩ := hsits.take hstart
  obtain ⟨b, -, hrestb, hsitsb⟩ := hsitsa.take hresta
  have hrestb' : b.rest = [name, word] ++ (taken ++ rest) := hrestb
  obtain ⟨d, -, hrestd, hsitsd⟩ := hsitsb.take hrestb'
  exact ⟨a, b, d, ⟨hresta, hsitsa⟩, ⟨hrestb, hsitsb⟩, hrestd, hsitsd⟩

theorem binding_found {binding : Option (Text × Text)} (hsits : Sits src c)
    (hrest : c.rest = taken ++ rest) (hfit : Fit like taken) (h : Binds src rest taken binding) :
    BindingFound like (spellings taken) binding := by
  cases h with
  | nothing => exact binding_nothing
  | @error name typed _ hbrace htyped hname =>
    rw [append_assoc] at hrest
    have hbegin : Spelling.begin ["\x7b"] (spellings typed) = false := by
      cases typed with
      | nil => rfl
      | cons first more =>
        refine eq_false_of_ne_true fun hbegin => ?_
        rw [spellings, map_cons, Spelling.begin_cons, Bool.and_eq_true, decide_eq_true_eq] at hbegin
        have hproper := hsits.proper first (by rw [hrest]; simp)
        have his : first.token.is "\x7b" :=
          decide_eq_true ((text_eq_iff hproper.1 (by decide)).mpr hbegin.1.symm)
        exact Bool.false_ne_true (hbrace.symm.trans his)
    rw [spellings_append, spellings, spellings, map_singleton, Token.spelling_of_isWord hname]
    exact binding_error
      (type_found hsits hrest (hfit.of_subset (subset_append_left _ _)) htyped hname) hbegin

/-- A plain statement is found again wherever its lexemes are spelled again. -/
theorem plain_found {first : Token} {make : Shape} (hsits : Sits src c)
    (hrest : c.rest = ⟨[], first⟩ :: taken ++ rest) (hfit : Fit like (⟨[], first⟩ :: taken))
    (hbrace : first.is "\x7d" = false) (hplain : Plain src rest (⟨[], first⟩ :: taken) make)
    (hreach : ∀ extent, (make extent).overreaches = false) (hadmits : like.Admits) :
    FindsStatement like (spellings (⟨[], first⟩ :: taken)) {}
      (make (src.extent first.start (stopOf {} (flat (⟨[], first⟩ :: taken))))) := by
  intro src' c' first' more rest' hsits' hrest' hspelled _
  obtain ⟨halike, hclose⟩ := hsits.close hrest hfit hsits' hrest' hspelled
  obtain ⟨make', hplain', hlike⟩ := hplain.alike hsits hrest hsits' hrest' halike hreach
  obtain ⟨c'', htakes, hrest'', -⟩ := hsits'.take hrest'
  have hbrace' : first'.is "\x7d" = false := by
    cases halike with
    | cons hfirst _ => exact (hfirst.is (by decide)).symm.trans hbrace
  refine ⟨hbrace', _, c'', hrest'', htakes.log, .plain htakes (hrest''.symm ▸ hplain'),
    .plain (hadmits _ _ (hplain.isPlain _) (hplain'.isPlain _) fun hstrict => ?_) .nil⟩
  have hlast : c''.last = stopOf {} (flat (⟨[], first'⟩ :: more)) := by
    rw [htakes.last, flat, nil_append, stopOf_cons, stopOf_cons]
  refine hlike (hclose hstrict) _ _ ?_
  have hsources := (hclose hstrict).alike (cons_ne_nil _ _) halike
  rw [← TypeText.slice_eq_extentOf, ← TypeText.slice_eq_extentOf] at hsources
  rw [hlast]
  exact hsources

end StatementReader

end Flowchart
