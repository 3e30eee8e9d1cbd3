import Flowchart.Proofs.Logging

/-!
The grammar that the readers of statements follow. A phrase is a statement, the statements of a
block, a block, a handler or a condition with its branches, and `Reads` relates it to the cursors
before and after it. The reader of blocks reads nothing that is not in the relation, so that a
property of everything that is read is an induction on the relation.
-/
namespace Flowchart

open List Reader ExprReader

variable {c c' : Cursor} {src : Source} {first : Token} {rest : List Lexeme} {make : Shape}

/-- The statement has no blocks and is neither a comment nor broken. -/
def Statement.isPlain : Statement → Bool
  | .cond .. | .loop .. | .each .. | .attempt .. | .lock .. | .comment .. | .invalid .. => false
  | _ => true

namespace StatementReader

open Lexeme Token Reader Cursor

/-- A declaration, an assignment or an expression starts here: no keyword does, or a word for a
failure that is assigned to. -/
def startsSimple (first : Token) (second : Option Token) : Bool :=
  !(first.is "return" || first.is "if" || first.is "while" || first.is "foreach" ||
    first.is "do" || first.is "lock" || first.is "break" || first.is "continue") &&
    !((first.is "panic" || first.is "fail") && !second.any (·.is "="))

inductive Bare : Text → Shape → Prop
  | leave : Bare "return" (.ret · none)
  | exitLoop : Bare "break" .exitLoop
  | nextRound : Bare "continue" .nextRound

inductive Gives : Text → (Extent → Expr → Statement) → Prop
  | give : Gives "return" fun extent value => .ret extent (some value)
  | panic : Gives "panic" .panic
  | fail : Gives "fail" .fail

/-- The lexemes of a statement without blocks with others after them, and what they are read as. -/
inductive Plain (src : Source) (rest : List Lexeme) : List Lexeme → Shape → Prop
  | bare {word : Text} {make : Shape} {keyword semicolon : Lexeme} (hbare : Bare word make)
      (hkeyword : keyword.token.is word = true) (hsemicolon : semicolon.token.is ";" = true) :
      Plain src rest [keyword, semicolon] make
  | gives {word : Text} {make : Extent → Expr → Statement} {keyword semicolon : Lexeme}
      {taken : List Lexeme} {value : Expr} (hgives : Gives word make)
      (hkeyword : keyword.token.is word = true)
      (hsecond : word ≠ "return" → (taken.head?.map Lexeme.token).any (·.is "=") = false)
      (hvalue : Forms src ";" taken value) (hsemicolon : semicolon.token.is ";" = true) :
      Plain src rest (keyword :: (taken ++ [semicolon])) (make · value)
  | simple {first : Lexeme} {taken : List Lexeme} {make : Shape}
      (hstarts : startsSimple first.token (taken.head?.map Lexeme.token) = true)
      (hsimple : Simple src rest (first :: taken) make) :
      Plain src rest (first :: taken) make

variable {lexemes : List Lexeme}

theorem Simple.isPlain (h : Simple src rest lexemes make) (extent : Extent) :
    (make extent).isPlain := by
  cases h <;> rfl

theorem Plain.isPlain (h : Plain src rest lexemes make) (extent : Extent) :
    (make extent).isPlain := by
  cases h with
  | bare hbare => cases hbare <;> rfl
  | gives hgives => cases hgives <;> rfl
  | simple _ hsimple => exact hsimple.isPlain extent

theorem Simple.extent_eq (h : Simple src rest lexemes make) (extent : Extent) :
    (make extent).extent = extent := by
  cases h <;> rfl

theorem Plain.extent_eq (h : Plain src rest lexemes make) (extent : Extent) :
    (make extent).extent = extent := by
  cases h with
  | bare hbare => cases hbare <;> rfl
  | gives hgives => cases hgives <;> rfl
  | simple _ hsimple => exact hsimple.extent_eq extent

/-- The lexemes before the body of a statement with a handler, with others after them, and what
they make of the body and the handler. -/
inductive Head (src : Source) (rest : List Lexeme) :
    List Lexeme → (Extent → Block → Handler → Statement) → Prop
  | loop {keyword : Lexeme} {taken : List Lexeme} {condition : Expr}
      (hkeyword : keyword.token.is "while" = true) (hcondition : Forms src "\x7b" taken condition) :
      Head src rest (keyword :: taken) (.loop · condition)
  | each {keyword name word : Lexeme} {typed taken : List Lexeme} {typeName : Text}
      {collection : Expr} (hkeyword : keyword.token.is "foreach" = true)
      (htyped : TypeText.Names src typed (name :: word :: (taken ++ rest)) typeName)
      (hname : name.token.isWord = true) (hword : word.token.is "in" = true)
      (hcollection : Forms src "\x7b" taken collection) :
      Head src rest (keyword :: (typed ++ name :: word :: taken))
        (.each · typeName name.token.text collection)
  | attempt {keyword : Lexeme} (hkeyword : keyword.token.is "do" = true) :
      Head src rest [keyword] .attempt
  | lock {keyword : Lexeme} (hkeyword : keyword.token.is "lock" = true) :
      Head src rest [keyword] .lock

/-- The lexemes between a handler's keywords and its body, and the error that they bind. -/
inductive Binds (src : Source) (rest : List Lexeme) : List Lexeme → Option (Text × Text) → Prop
  | nothing : Binds src rest [] none
  | error {name : Lexeme} {typed : List Lexeme} {typeName : Text}
      (hbrace : typed.head?.any (·.token.is "\x7b") = false)
      (htyped : TypeText.Names src typed (name :: rest) typeName)
      (hname : name.token.isWord = true) :
      Binds src rest (typed ++ [name]) (some (typeName, name.token.text))

/-- What the readers of statements read. -/
inductive Phrase where
  | statement (statement : Statement)
  | statements (statements : List Statement)
  | block (block : Block)
  | handler (handler : Handler)
  | conditional (condition : Expr) (body : Block) (otherwise : Otherwise)
  | other (otherwise : Otherwise)

/-- The phrase stands between two cursors. -/
inductive Reads (src : Source) : Phrase → Cursor → Cursor → Prop
  | plain {first : Token} {taken : List Lexeme} {make : Shape} {c c' : Cursor}
      (htakes : c.Takes (⟨[], first⟩ :: taken) c')
      (hplain : Plain src c'.rest (⟨[], first⟩ :: taken) make) :
      Reads src (.statement (make (src.extent first.start c'.last))) c c'
  | cond {first : Token} {rest : List Lexeme} {condition : Expr} {body : Block}
      {otherwise : Otherwise} {c c' : Cursor} (hfirst : c.rest = ⟨[], first⟩ :: rest)
      (hcond : Reads src (.conditional condition body otherwise) c c') :
      Reads src (.statement (.cond (src.extent first.start c'.last) condition body otherwise)) c c'
  | guarded {first : Token} {taken : List Lexeme} {make : Extent → Block → Handler → Statement}
      {body : Block} {handler : Handler} {c c₁ c₂ c' : Cursor}
      (htakes : c.Takes (⟨[], first⟩ :: taken) c₁)
      (hhead : Head src c₁.rest (⟨[], first⟩ :: taken) make)
      (hbody : Reads src (.block body) c₁ c₂) (hhandler : Reads src (.handler handler) c₂ c') :
      Reads src (.statement (make (src.extent first.start c'.last) body handler)) c c'
  | conditional {keyword : Lexeme} {taken : List Lexeme} {condition : Expr} {body : Block}
      {otherwise : Otherwise} {c c₁ c₂ c' : Cursor} (htakes : c.Takes (keyword :: taken) c₁)
      (hkeyword : keyword.token.is "if" = true) (hcondition : Forms src "\x7b" taken condition)
      (hbody : Reads src (.block body) c₁ c₂)
      (hother : Reads src (.other otherwise) c₂ c') :
      Reads src (.conditional condition body otherwise) c c'
  | alone {c : Cursor} (helse : c.at? "else" = false) : Reads src (.other .nothing) c c
  | chained {other next : Lexeme} {rest : List Lexeme} {condition : Expr} {body : Block}
      {otherwise : Otherwise} {c c₁ c' : Cursor} (htakes : c.Takes [other] c₁)
      (helse : other.token.is "else" = true) (hnext : c₁.rest = next :: rest)
      (hinner : Reads src (.conditional condition body otherwise) c₁ c') :
      Reads src (.other
        (.cond (src.extent next.token.start c'.last) condition body otherwise)) c c'
  | fallback {other : Lexeme} {last : Block} {c c₁ c' : Cursor} (htakes : c.Takes [other] c₁)
      (helse : other.token.is "else" = true) (hlast : Reads src (.block last) c₁ c') :
      Reads src (.other (.block last)) c c'
  | unhandled {c : Cursor}
      (h : (c.at? "on" && c.peekSecond?.any (·.is "fail")) = false) :
      Reads src (.handler .nothing) c c
  | handled {on fail : Lexeme} {taken : List Lexeme} {binding : Option (Text × Text)}
      {body : Block} {c c₁ c' : Cursor} (htakes : c.Takes (on :: fail :: taken) c₁)
      (hon : on.token.is "on" = true) (hfail : fail.token.is "fail" = true)
      (hbinds : Binds src c₁.rest taken binding) (hbody : Reads src (.block body) c₁ c') :
      Reads src (.handler (.onFail binding body)) c c'
  | block {opening : Lexeme} {closing : Token} {statements : List Statement}
      {c c₁ c₂ c' : Cursor} (hopens : c.Takes [opening] c₁)
      (hopening : opening.token.is "\x7b" = true)
      (hbody : Reads src (.statements statements) c₁ c₂)
      (hcloses : c₂.Takes [⟨[], closing⟩] c') (hclosing : closing.is "\x7d" = true) :
      Reads src (.block (.mk (src.extent opening.token.start closing.stop) statements)) c c'
  | done {closing : Token} {rest : List Lexeme} {c : Cursor}
      (hrest : c.rest = ⟨[], closing⟩ :: rest) (hclosing : closing.is "\x7d" = true) :
      Reads src (.statements []) c c
  | comment {comment : Statement} {statements : List Statement} {c c₁ c' : Cursor}
      (hcomment : comment? src c = .ok (some comment) c₁)
      (hmore : Reads src (.statements statements) c₁ c') :
      Reads src (.statements (comment :: statements)) c c'
  | cons {first : Token} {rest : List Lexeme} {statement : Statement}
      {statements : List Statement} {c c₁ c' : Cursor} (hrest : c.rest = ⟨[], first⟩ :: rest)
      (hfirst : first.is "\x7d" = false) (hstatement : Reads src (.statement statement) c c₁)
      (hmore : Reads src (.statements statements) c₁ c') :
      Reads src (.statements (statement :: statements)) c c'
  | broken {first : Token} {rest left : List Lexeme} {stop : Mark} {statements : List Statement}
      {c c₁ c' : Cursor} (hrest : c.rest = ⟨[], first⟩ :: rest)
      (hfirst : first.is "\x7d" = false) (hskip : skipBroken 0 first.stop c.rest = (stop, left))
      (hleft : c₁.rest = left) (hlast : c₁.last = stop)
      (hlog : Noted first (src.extent first.start stop) c.log c₁.log)
      (hmore : Reads src (.statements statements) c₁ c') :
      Reads src (.statements (.invalid (src.extent first.start stop) :: statements)) c c'

theorem rest_of_at? {text : Text} (h : c.at? text) :
    ∃ lexeme, c.rest = lexeme :: c.next.rest ∧ lexeme.token.is text := by
  obtain ⟨token, hpeek, htext⟩ := (Option.any_eq_true _ _).mp h
  obtain ⟨comments, hrest⟩ := rest_of_peek? hpeek
  exact ⟨⟨comments, token⟩, hrest, htext⟩

theorem give_reads (hrest : c.rest = ⟨[], first⟩ :: rest) (hfirst : first.is "return")
    (h : (eat ";" >>= fun ended => if ended then
        pure fun extent => Statement.ret extent none
      else valueToSemicolon src >>= fun value =>
        pure fun extent => Statement.ret extent (some value)) c.next = .ok make c') :
    Reads src (.statement (make (src.extent first.start c'.last))) c c' := by
  have hnext := takes_next hrest
  obtain ⟨ended, c₁, heat, hafter⟩ := bind_eq_ok h
  rcases eat_eq_ok heat with ⟨rfl, comments, semicolon, hsemicolon, htakes⟩ | ⟨rfl, rfl, -⟩
  · cases hafter
    exact .plain (hnext.trans htakes) (.bare .leave hfirst hsemicolon)
  · obtain ⟨value, c₂, hvalue, hdone⟩ := bind_eq_ok hafter
    cases hdone
    obtain ⟨taken, semicolon, htakes, hsemicolon, hforms⟩ := valueToSemicolon_eq_ok hvalue
    exact .plain (hnext.trans htakes) (.gives .give hfirst (absurd rfl) hforms hsemicolon)

theorem bare_reads {word : Text} {found : Shape} (hrest : c.rest = ⟨[], first⟩ :: rest)
    (hbare : Bare word make) (hfirst : first.is word)
    (h : (expect src ";" >>= fun _ => pure make) c.next = .ok found c') :
    Reads src (.statement (found (src.extent first.start c'.last))) c c' := by
  obtain ⟨semicolon, c₁, hexpect, hdone⟩ := bind_eq_ok h
  cases hdone
  obtain ⟨hsemicolon, comments, htakes⟩ := expect_eq_ok hexpect
  exact .plain ((takes_next hrest).trans htakes) (.bare hbare hfirst hsemicolon)

theorem failure_reads (hrest : c.rest = ⟨[], first⟩ :: rest)
    (hfirst : ((first.is "panic" || first.is "fail") && !c.peekSecond?.any (·.is "=")))
    (h : (valueToSemicolon src >>= fun value => pure fun extent =>
      if first.is "panic" then Statement.panic extent value
      else Statement.fail extent value) c.next = .ok make c') :
    Reads src (.statement (make (src.extent first.start c'.last))) c c' := by
  have hnext := takes_next hrest
  rw [Bool.and_eq_true, Bool.or_eq_true, Bool.not_eq_true'] at hfirst
  obtain ⟨hword, hequals⟩ := hfirst
  obtain ⟨value, c₁, hvalue, hdone⟩ := bind_eq_ok h
  cases hdone
  obtain ⟨taken, semicolon, htakes, hsemicolon, hforms⟩ := valueToSemicolon_eq_ok hvalue
  have hsecond : (taken.head?.map Lexeme.token).any (·.is "=") = false := by
    cases taken with
    | nil => rfl
    | cons second taken =>
      unfold peekSecond? at hequals
      rw [(hnext.trans htakes).rest] at hequals
      exact hequals
  have hall := hnext.trans htakes
  by_cases hpanic : first.is "panic"
  · have hreads := Reads.plain hall (.gives .panic hpanic (fun _ => hsecond) hforms hsemicolon)
    simp only [if_pos hpanic]
    exact hreads
  · have hfail : first.is "fail" := hword.resolve_left hpanic
    have hreads := Reads.plain hall (.gives .fail hfail (fun _ => hsecond) hforms hsemicolon)
    simp only [if_neg hpanic]
    exact hreads

/-- A semicolon follows what a simple statement starts with. -/
theorem Simple.two_le_length (h : Simple src rest lexemes make) : 2 ≤ lexemes.length := by
  cases h with
  | declaration hfinal htyped hname htail =>
    cases htail <;> simp only [length_append, length_cons] <;> omega
  | assignment =>
    simp only [length_append, length_cons]
    omega
  | @expression taken semicolon value hfinal hdeclares hstop hvalue hsemicolon =>
    have hpos := length_pos_iff.mpr hvalue.nonempty
    simp only [length_append, length_cons]
    omega

theorem simple_reads (hrest : c.rest = ⟨[], first⟩ :: rest)
    (hstarts : startsSimple first c.peekSecond?) (h : simple src c = .ok make c') :
    Reads src (.statement (make (src.extent first.start c'.last))) c c' := by
  obtain ⟨taken, htakes, hsimple⟩ := simple_eq_ok h
  have hlength := hsimple.two_le_length
  rcases taken with _ | ⟨lexeme, _ | ⟨second, taken⟩⟩
  · simp at hlength
  · simp at hlength
  · have hhead := htakes.rest
    rw [hrest] at hhead
    obtain rfl : lexeme = ⟨[], first⟩ := (List.cons.inj hhead).1.symm
    rw [peekSecond?, htakes.rest] at hstarts
    exact .plain htakes (.simple hstarts hsimple)

/-- A reader of blocks that reads blocks of the grammar only. -/
def Sound (src : Source) (block : Reader Block) : Prop :=
  ∀ c body c', block c = .ok body c' → Reads src (.block body) c c'

section

variable {block : Reader Block} (hblock : Sound src block)

include hblock

theorem handler_reads {found : Handler} (h : handler src block c = .ok found c') :
    Reads src (.handler found) c c' := by
  unfold handler at h
  rw [get_bind] at h
  split at h
  · next hat =>
    rw [Bool.and_eq_true] at hat
    obtain ⟨on, hrest, hon⟩ := rest_of_at? hat.1
    have hsecond : c.next.at? "fail" := by
      have hfail := hat.2
      unfold peekSecond? at hfail
      rw [hrest] at hfail
      exact hfail
    obtain ⟨fail, hnext, hfail⟩ := rest_of_at? hsecond
    have htakes := (takes_next hrest).trans (takes_next hnext)
    rw [advance_bind, advance_bind, get_bind] at h
    split at h
    · obtain ⟨binding, c₁, hbinding, hbody⟩ := bind_eq_ok h
      cases hbinding
      obtain ⟨body, c₂, hbody, hdone⟩ := bind_eq_ok hbody
      cases hdone
      exact .handled htakes hon hfail .nothing (hblock _ _ _ hbody)
    · next hbrace =>
      obtain ⟨typeName, c₁, htyped, hafter⟩ := bind_eq_ok h
      obtain ⟨name, c₂, hname, hafter⟩ := bind_eq_ok hafter
      obtain ⟨binding, c₃, hbinding, hafter⟩ := bind_eq_ok hafter
      cases hbinding
      obtain ⟨body, c₄, hbody, hdone⟩ := bind_eq_ok hafter
      cases hdone
      obtain ⟨typed, htaken, hnames⟩ := TypeText.read_eq_ok htyped
      obtain ⟨hword, comments, hlast⟩ := expectWord_eq_ok hname
      have hall := htakes.trans (htaken.trans hlast)
      rw [hlast.rest] at hnames
      obtain ⟨first, more, rfl, -⟩ := hnames.text
      unfold Cursor.at? Cursor.peek? at hbrace
      rw [htaken.rest] at hbrace
      exact .handled hall hon hfail (.error (eq_false_of_ne_true hbrace) hnames hword)
        (hblock _ _ _ hbody)
  · next hat =>
    cases h
    exact .unhandled (eq_false_of_ne_true hat)

theorem conditional_reads {bound : Nat} {condition : Expr} {body : Block} {otherwise : Otherwise}
    (h : conditional src block bound c = .ok (condition, body, otherwise) c') :
    Reads src (.conditional condition body otherwise) c c' := by
  induction bound generalizing condition body otherwise c with
  | zero => cases h
  | succ bound ih =>
    obtain ⟨keyword, c₁, hkeyword, h⟩ := bind_eq_ok h
    obtain ⟨found, c₂, hfound, h⟩ := bind_eq_ok h
    obtain ⟨first, c₃, hfirst, h⟩ := bind_eq_ok h
    obtain ⟨other, c₄, heat, hafter⟩ := bind_eq_ok h
    obtain ⟨hif, comments, htakes⟩ := expect_eq_ok hkeyword
    obtain ⟨-, taken, htaken, hforms⟩ := readUntil_eq_ok hfound
    have hall := htakes.trans htaken
    have hbody := hblock _ _ _ hfirst
    rcases eat_eq_ok heat with ⟨rfl, comments', word, helse, hother⟩ | ⟨rfl, rfl, helse⟩
    · rw [if_pos rfl, get_bind] at hafter
      have hlast (h : (block >>= fun last => pure (found, first, Otherwise.block last)) c₄ =
            .ok (condition, body, otherwise) c') :
          Reads src (.conditional condition body otherwise) c c' := by
        obtain ⟨last, c₅, hlast, hdone⟩ := bind_eq_ok h
        cases hdone
        exact .conditional hall hif hforms hbody (.fallback hother helse (hblock _ _ _ hlast))
      cases hpeek : c₄.peek? with
      | none =>
        rw [hpeek] at hafter
        exact hlast hafter
      | some token =>
        rw [hpeek] at hafter
        dsimp only at hafter
        split at hafter
        · obtain ⟨⟨inner, innerBody, innerOtherwise⟩, c₅, hinner, hdone⟩ :=
            bind_eq_ok hafter
          cases hdone
          obtain ⟨comments'', hrest⟩ := rest_of_peek? hpeek
          exact .conditional hall hif hforms hbody (.chained hother helse hrest (ih hinner))
        · exact hlast hafter
    · cases hafter
      exact .conditional hall hif hforms hbody (.alone helse)

theorem guarded_reads {taken : List Lexeme} {make : Extent → Block → Handler → Statement}
    {c₁ : Cursor} {found : Shape} (htakes : c.Takes (⟨[], first⟩ :: taken) c₁)
    (hhead : Head src c₁.rest (⟨[], first⟩ :: taken) make)
    (h : (block >>= fun body => handler src block >>= fun found =>
      pure fun extent => make extent body found) c₁ = .ok found c') :
    Reads src (.statement (found (src.extent first.start c'.last))) c c' := by
  obtain ⟨body, c₂, hbody, h⟩ := bind_eq_ok h
  obtain ⟨found, c₃, hhandler, hdone⟩ := bind_eq_ok h
  cases hdone
  exact .guarded htakes hhead (hblock _ _ _ hbody) (handler_reads hblock hhandler)

theorem statement_reads {found : Statement} (hrest : c.rest = ⟨[], first⟩ :: rest)
    (h : statement src block first c = .ok found c') : Reads src (.statement found) c c' := by
  obtain ⟨make, c₁, hshape, hdone⟩ := bind_eq_ok h
  cases hdone
  have hnext := takes_next hrest
  unfold shape at hshape
  split at hshape
  · next hfirst =>
    exact give_reads hrest hfirst hshape
  next hreturn =>
  split at hshape
  · rw [get_bind] at hshape
    obtain ⟨⟨condition, body, otherwise⟩, c₂, hcond, hdone⟩ := bind_eq_ok hshape
    cases hdone
    exact .cond hrest (conditional_reads hblock hcond)
  next hif =>
  split at hshape
  · next hfirst =>
    rw [advance_bind] at hshape
    obtain ⟨condition, c₂, hcondition, hafter⟩ := bind_eq_ok hshape
    obtain ⟨-, taken, htaken, hforms⟩ := readUntil_eq_ok hcondition
    exact guarded_reads hblock (hnext.trans htaken) (.loop hfirst hforms) hafter
  next hwhile =>
  split at hshape
  · next hfirst =>
    rw [advance_bind] at hshape
    obtain ⟨typeName, c₂, htyped, hafter⟩ := bind_eq_ok hshape
    obtain ⟨name, c₃, hname, hafter⟩ := bind_eq_ok hafter
    obtain ⟨word, c₄, hword, hafter⟩ := bind_eq_ok hafter
    obtain ⟨collection, c₅, hcollection, hafter⟩ := bind_eq_ok hafter
    obtain ⟨typed, htypedTakes, hnames⟩ := TypeText.read_eq_ok htyped
    obtain ⟨hisWord, comments, hnameTakes⟩ := expectWord_eq_ok hname
    obtain ⟨hin, comments', hwordTakes⟩ := expect_eq_ok hword
    obtain ⟨-, taken, htaken, hforms⟩ := readUntil_eq_ok hcollection
    have hall := hnext.trans (htypedTakes.trans (hnameTakes.trans (hwordTakes.trans htaken)))
    rw [(hnameTakes.trans (hwordTakes.trans htaken)).rest] at hnames
    exact guarded_reads hblock hall (.each hfirst hnames hisWord hin hforms) hafter
  next hforeach =>
  split at hshape
  · next hfirst =>
    exact guarded_reads hblock hnext (.attempt hfirst) hshape
  next hdo =>
  split at hshape
  · next hfirst =>
    exact guarded_reads hblock hnext (.lock hfirst) hshape
  next hlock =>
  split at hshape
  · next hfirst =>
    exact bare_reads hrest .exitLoop hfirst hshape
  next hbreak =>
  split at hshape
  · next hfirst =>
    exact bare_reads hrest .nextRound hfirst hshape
  next hcontinue =>
  rw [get_bind] at hshape
  split at hshape
  · next hfirst =>
    exact failure_reads hrest hfirst hshape
  · next hfirst =>
    have hstarts : startsSimple first c.peekSecond? := by
      simp only [startsSimple, eq_false_of_ne_true hreturn, eq_false_of_ne_true hif,
        eq_false_of_ne_true hwhile, eq_false_of_ne_true hforeach, eq_false_of_ne_true hdo,
        eq_false_of_ne_true hlock, eq_false_of_ne_true hbreak, eq_false_of_ne_true hcontinue,
        eq_false_of_ne_true hfirst, Bool.or_self, Bool.not_false, Bool.and_self]
    exact simple_reads hrest hstarts hshape

end

theorem comment?_eq_none (h : comment? src c = .ok none c') :
    c' = c ∧ ∀ lexeme rest, c.rest = lexeme :: rest → lexeme.comments = [] := by
  unfold comment? at h
  split at h
  · cases h
  · next hnone =>
    cases h
    refine ⟨rfl, fun lexeme rest hrest => ?_⟩
    cases hcomments : lexeme.comments with
    | nil => rfl
    | cons first comments =>
      obtain ⟨_, token⟩ := lexeme
      cases hcomments
      exact absurd hrest (hnone first comments token rest)

theorem statements_reads {block : Reader Block} (hblock : Sound src block)
    (hadds : Adds (·.range.file = src.file) block) {opening : Token} {bound : Nat}
    {found : List Statement}
    (h : statements src (statement src block) opening bound c = .ok found c') :
    Reads src (.statements found) c c' ∧ ∃ closing rest, c'.rest = ⟨[], closing⟩ :: rest := by
  induction bound generalizing found c with
  | zero => cases h
  | succ bound ih =>
    obtain ⟨comment, c₁, hcomment, hafter⟩ := bind_eq_ok h
    cases comment with
    | some comment =>
      obtain ⟨more, c₂, hmore, hdone⟩ := bind_eq_ok hafter
      cases hdone
      exact (ih hmore).imp_left (.comment hcomment)
    | none =>
      obtain ⟨rfl, hcomments⟩ := comment?_eq_none hcomment
      dsimp only at hafter
      rw [get_bind] at hafter
      cases hpeek : c₁.peek? with
      | none =>
        rw [hpeek] at hafter
        cases hafter
      | some token =>
        rw [hpeek] at hafter
        dsimp only at hafter
        obtain ⟨comments, hrest⟩ := rest_of_peek? hpeek
        obtain rfl : comments = [] := hcomments _ _ hrest
        split at hafter
        · next hclosing =>
          cases hafter
          exact ⟨.done hrest hclosing, token, _, hrest⟩
        · next hclosing =>
          obtain ⟨first, c₂, hfirst, hafter⟩ := bind_eq_ok hafter
          obtain ⟨more, c₃, hmore, hdone⟩ := bind_eq_ok hafter
          cases hdone
          have hnot := eq_false_of_ne_true hclosing
          unfold recovering at hfirst
          split at hfirst
          · next statement next hstatement =>
            cases hfirst
            exact (ih hmore).imp_left
              (.cons hrest hnot (statement_reads hblock hrest hstatement))
          · next hfails =>
            cases hfirst
            exact (ih hmore).imp_left
              (.broken hrest hnot rfl rfl rfl (recovering_noted hadds hfails _))

theorem block_reads {depth : Nat} : Sound src (block src depth) := by
  induction depth with
  | zero =>
    intro c body c' h
    cases h
  | succ depth ih =>
    intro c body c' h
    obtain ⟨opening, c₁, hopens, hafter⟩ := bind_eq_ok h
    rw [get_bind] at hafter
    obtain ⟨statements, c₂, hstatements, hafter⟩ := bind_eq_ok hafter
    obtain ⟨closing, c₃, hcloses, hdone⟩ := bind_eq_ok hafter
    cases hdone
    obtain ⟨hbody, last, rest, hrest⟩ := statements_reads ih (adds_block depth) hstatements
    obtain ⟨hopening, comments, hopenTakes⟩ := expect_eq_ok hopens
    obtain ⟨hclosing, comments', hcloseTakes⟩ := expect_eq_ok hcloses
    have hsame := hcloseTakes.rest
    rw [hrest] at hsame
    obtain rfl : comments' = [] := (congrArg Lexeme.comments (List.cons.inj hsame).1).symm
    exact .block hopenTakes hopening hbody hcloseTakes hclosing

/-- Lexemes among others, some of them without their first comments. -/
def Within (some all : List Lexeme) : Prop :=
  ∀ lexeme ∈ some, ∃ whole ∈ all, lexeme.token = whole.token ∧ lexeme.comments ⊆ whole.comments

theorem Within.of_suffix {some all : List Lexeme} (h : some <:+ all) : Within some all :=
  fun lexeme hmem => ⟨lexeme, h.subset hmem, rfl, List.Subset.refl _⟩

theorem Within.trans {a b c : List Lexeme} (h : Within a b) (h' : Within b c) : Within a c := by
  intro lexeme hmem
  obtain ⟨between, hbetween, htoken, hcomments⟩ := h lexeme hmem
  obtain ⟨whole, hwhole, htoken', hcomments'⟩ := h' between hbetween
  exact ⟨whole, hwhole, htoken.trans htoken', List.Subset.trans hcomments hcomments'⟩

theorem Within.cons {comments comments' : List Token} {token : Token} {rest : List Lexeme}
    (h : comments ⊆ comments') : Within (⟨comments, token⟩ :: rest) (⟨comments', token⟩ :: rest) := by
  intro lexeme hmem
  rcases mem_cons.mp hmem with rfl | hrest
  · exact ⟨_, mem_cons_self .., rfl, h⟩
  · exact ⟨lexeme, mem_cons_of_mem _ hrest, rfl, List.Subset.refl _⟩

/-- The tokens between two cursors, comments included. -/
structure Steps (c : Cursor) (tokens : List Token) (c' : Cursor) : Prop where
  rest : flat c.rest = tokens ++ flat c'.rest
  last : c'.last = stopOf c.last tokens
  within : Within c'.rest c.rest

namespace Steps

theorem refl (c : Cursor) : Steps c [] c := ⟨rfl, rfl, .of_suffix (suffix_refl _)⟩

theorem trans {c'' : Cursor} {a b : List Token} (h : Steps c a c') (h' : Steps c' b c'') :
    Steps c (a ++ b) c'' where
  rest := by rw [h.rest, h'.rest, append_assoc]
  last := by rw [h'.last, h.last, stopOf_append]
  within := h'.within.trans h.within

theorem of_takes {taken : List Lexeme} (h : c.Takes taken c') :
    Steps c (flat taken) c' where
  rest := by rw [h.rest, flat_append]
  last := h.last
  within := by
    rw [h.rest]
    exact .of_suffix (suffix_append _ _)

end Steps

theorem commentRun_append (previous : Token) (comments : List Token) :
    comments = (commentRun previous comments).1 ++ (commentRun previous comments).2 := by
  induction comments generalizing previous with
  | nil => rfl
  | cons token comments ih =>
    unfold commentRun
    split
    · exact congrArg (token :: ·) (ih token)
    · rfl

theorem comment?_steps {comment : Statement} (h : comment? src c = .ok (some comment) c') :
    ∃ first run lines, Steps c (first :: run) c' ∧
      comment = .comment (src.extent first.start c'.last) lines := by
  unfold comment? at h
  split at h
  · next first comments token rest hrest =>
    cases h
    refine ⟨first, (commentRun first comments).1, _, ⟨?_, ?_, ?_⟩, rfl⟩
    · rw [hrest]
      simp only [flat, cons_append]
      rw [← append_assoc, ← commentRun_append]
    · rw [stopOf_cons]
      unfold stopOf
      cases (commentRun first comments).1.getLast? <;> rfl
    · rw [hrest]
      refine .cons fun comment hmem => mem_cons_of_mem _ ?_
      rw [commentRun_append first comments]
      exact mem_append_right _ hmem
  · cases h

/-- What is passed over is a lexeme and others, unless the lexeme is a brace that closes the block. -/
theorem skipBroken_past {c : Cursor} {lexemes : List Lexeme} {depth : Nat} {last : Mark} {lexeme : Lexeme}
    (hrest : c.rest = lexeme :: lexemes) (hopen : depth = 0 → lexeme.token.is "\x7d" = false)
    (h : skipBroken depth last (lexeme :: lexemes) = (c'.last, c'.rest)) :
    ∃ more, Steps c (flat [lexeme] ++ more) c' := by
  have hpast := Steps.of_takes (takes_next hrest)
  have hnext := next_eq hrest
  have hend (h : (lexeme.token.stop, lexemes) = (c'.last, c'.rest)) :
      ∃ more, Steps c (flat [lexeme] ++ more) c' := by
    obtain ⟨hlast, hleft⟩ := Prod.mk.inj h
    rw [next_eq hrest, hlast, hleft] at hpast
    exact ⟨[], hpast.trans ⟨rfl, rfl, .of_suffix (suffix_refl _)⟩⟩
  have hstep {depth : Nat} (h : skipBroken depth lexeme.token.stop lexemes = (c'.last, c'.rest)) :
      ∃ more, Steps c (flat [lexeme] ++ more) c' := by
    cases lexemes with
    | nil => exact hend h
    | cons next lexemes =>
      by_cases hopen : depth = 0 → next.token.is "\x7d" = false
      · obtain ⟨more, hsteps⟩ := @skipBroken_past c.next lexemes depth _ next (by rw [hnext]) hopen h
        exact ⟨_, hpast.trans hsteps⟩
      · obtain ⟨rfl, hbrace⟩ : depth = 0 ∧ next.token.is "\x7d" := by simpa using hopen
        rw [skipBroken, if_pos hbrace] at h
        obtain ⟨hlast, hleft⟩ := Prod.mk.inj h
        refine ⟨next.comments, hpast.trans ⟨?_, ?_, ?_⟩⟩
        · rw [hnext, ← hleft]
          rfl
        · rw [hnext, ← hlast]
          rfl
        · rw [hnext, ← hleft]
          exact .cons (nil_subset _)
  unfold skipBroken at h
  dsimp only at h
  split at h
  · next hbrace =>
    split at h
    · cases (hopen rfl).symm.trans hbrace
    · exact hend h
    · exact hstep h
  · split at h
    · exact hstep h
    · split at h
      · exact hend h
      · exact hstep h

/-- A broken statement takes its first token, whatever follows. -/
theorem skipBroken_steps {left : List Lexeme} {stop : Mark} (hrest : c.rest = ⟨[], first⟩ :: rest)
    (hfirst : first.is "\x7d" = false) (h : skipBroken 0 first.stop c.rest = (stop, left))
    (hleft : c'.rest = left) (hlast : c'.last = stop) : ∃ more, Steps c (first :: more) c' :=
  skipBroken_past hrest (fun _ => hfirst) (by rw [← hrest, h, hleft, hlast])

/-- Every phrase takes the tokens between its cursors. -/
theorem Reads.steps {phrase : Phrase} (h : Reads src phrase c c') :
    ∃ tokens, Steps c tokens c' := by
  induction h with
  | plain htakes _ => exact ⟨_, .of_takes htakes⟩
  | cond _ _ ih => exact ih
  | guarded htakes _ _ _ ihbody ihafter | conditional htakes _ _ _ _ ihbody ihafter =>
    obtain ⟨tokens, hbody⟩ := ihbody
    obtain ⟨tokens', hafter⟩ := ihafter
    exact ⟨_, ((Steps.of_takes htakes).trans hbody).trans hafter⟩
  | alone _ | unhandled _ => exact ⟨[], .refl _⟩
  | chained htakes _ _ _ ih | fallback htakes _ _ ih | handled htakes _ _ _ _ ih =>
    obtain ⟨tokens, hbody⟩ := ih
    exact ⟨_, (Steps.of_takes htakes).trans hbody⟩
  | block hopens _ _ hcloses _ ih =>
    obtain ⟨tokens, hbody⟩ := ih
    exact ⟨_, ((Steps.of_takes hopens).trans hbody).trans (.of_takes hcloses)⟩
  | done _ _ => exact ⟨[], .refl _⟩
  | comment hcomment _ ih =>
    obtain ⟨first, run, lines, hsteps, -⟩ := comment?_steps hcomment
    obtain ⟨tokens, hmore⟩ := ih
    exact ⟨_, hsteps.trans hmore⟩
  | cons _ _ _ _ ihstatement ihmore =>
    obtain ⟨tokens, hstatement⟩ := ihstatement
    obtain ⟨tokens', hmore⟩ := ihmore
    exact ⟨_, hstatement.trans hmore⟩
  | broken hrest hfirst hskip hleft hlast _ _ ih =>
    obtain ⟨more, hsteps⟩ := skipBroken_steps hrest hfirst hskip hleft hlast
    obtain ⟨tokens, hmore⟩ := ih
    exact ⟨_, hsteps.trans hmore⟩

end StatementReader

end Flowchart
