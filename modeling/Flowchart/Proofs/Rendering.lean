import Flowchart.Proofs.Finding

/-!
What each form of a node writes. The values of a node put down spellings of their own; the text that
is rendered puts them down in the order of the form, with the keywords, brackets and semicolons that
belong to it, and the children of a part on lines of their own.
-/
namespace Flowchart

open Lexeme Token StatementReader List Text

variable {label value : Text} {vs : List Spelling}

variable {like : Likeness} {src : Source} {c : Cursor}

theorem Token.Cuts.unlone {d : Char} {text : Text} {mark : Mark} {tokens : List Token}
    (hd : isLone d) (h : Cuts mark (d :: text) tokens) :
    ∃ token more, tokens = token :: more ∧ token.cls = .symbol ∧ token.text = [d] ∧
      token.stop = mark.after [d] ∧ Cuts (mark.after [d]) text more := by
  obtain ⟨hblank, -, htake⟩ := take?_lone hd text
  obtain ⟨cls, _, after, more, htake', hmore, rfl⟩ := h.first hblank
  rw [htake] at htake'
  cases htake'
  exact ⟨_, more, rfl, rfl, rfl, rfl, hmore⟩

namespace Text

theorem Spells.unlone {d : Char} {text : Text} {ss : List Spelling} (hd : isLone d)
    (h : Spells (d :: text) ss) : ∃ more, ss = mark [d] :: more ∧ Spells text more := by
  obtain ⟨tokens, hcuts, rfl⟩ := h.cuts {}
  obtain ⟨token, more, rfl, hcls, htext, -, hmore⟩ := hcuts.unlone hd
  refine ⟨_, ?_, .of_cuts hmore⟩
  rw [map_cons, spelling, hcls, htext]
  rfl

/-- A condition is written in parentheses. Those it has already are not written twice. -/
theorem Writes.parenthesized {text : Text} {ks : List Spelling} (h : Writes text ks)
    (hplain : ∀ s ∈ ks, s.isComment = false) (hempty : ks ≠ [mark "(", mark ")"]) :
    trim (Expr.stripParens text) ≠ [] ∧
      ∃ ls, Enclosed ks ls ∧ Puts like (Render.parenthesized (Expr.stripParens text)) ls := by
  have henclosed {inner : Text} {ls : List Spelling} (hinner : Puts like inner ls) :
      Puts like (Render.parenthesized inner) (mark "(" :: (ls ++ [mark ")"])) := by
    have hputs := (hinner.trim.close (c := ')') (by decide)).lone (c := '(') (by decide)
    exact hputs
  unfold Expr.stripParens
  split
  · next hparens =>
    obtain ⟨hfirst, hlast, -⟩ := hparens
    obtain ⟨front, rfl⟩ := getLast?_eq_some_iff.mp hlast
    cases front with
    | nil => exact absurd hfirst (by decide)
    | cons d inner =>
      obtain rfl : d = '(' := Option.some.inj hfirst
      obtain ⟨more, rfl, hmore⟩ := Spells.unlone (by decide) h.spells
      have hclosed : more.getLast?.any Spelling.isComment = false := by
        cases hmem : more.getLast? with
        | none => rfl
        | some last => exact hplain last (mem_cons_of_mem _ (mem_of_getLast? hmem))
      obtain ⟨ls, rfl, hinner⟩ := hmore.unclose (by decide) hclosed
      have hls : ∀ s ∈ ls, s.isComment = false := fun s hs => hplain s (by simp [hs])
      obtain ⟨s, ls, rfl⟩ : ∃ s more, ls = s :: more := by
        refine exists_cons_of_ne_nil ?_
        rintro rfl
        exact hempty rfl
      have hcore : (s :: ls).getLast?.any Spelling.isComment = false := by
        cases hmem : (s :: ls).getLast? with
        | none => rfl
        | some last => exact hls last (mem_of_getLast? hmem)
      have hputs : Puts like (trim inner) (s :: ls) := ⟨_, hinner.writes_trim hcore, .plain hls⟩
      have htail : trim ((('(' : Char) :: inner ++ [')']).tail.dropLast) = trim inner := by
        rw [cons_append, tail_cons, dropLast_concat]
      rw [htail]
      exact ⟨hputs.trim_ne_nil, _, .inl rfl, henclosed hputs⟩
  · have hputs : Puts like text ks := ⟨ks, h, .plain hplain⟩
    exact ⟨hputs.trim_ne_nil, _, .inr rfl, henclosed hputs⟩

end Text

/-- The condition is nothing but an empty pair of parentheses. -/
def Expr.isEmptyParens (e : Expr) : Bool := tokens? e.source = some (enclosed [])

theorem StatementReader.Sits.puts_condition {stop : Text} {taken left : List Lexeme} {condition : Expr}
    (h : Sits src c) (hrest : c.rest = taken ++ left)
    (hbare : ∀ lexeme ∈ taken.tail, lexeme.comments = [])
    (hcondition : ExprReader.Forms src stop taken condition)
    (hempty : condition.isEmptyParens = false) :
    trim condition.unparenthesized ≠ [] ∧ ∃ ks, Enclosed (spellings taken) ks ∧
      Puts like (Render.parenthesized condition.unparenthesized) ks := by
  obtain ⟨first, more, rfl⟩ := exists_cons_of_ne_nil hcondition.nonempty
  have hsource : condition.source =
      src.slice first.token.start (stopOf {} (flat (first :: more))) := by
    rw [hcondition.value, ExprReader.source_ofTokens, TypeText.slice_eq_extentOf]
  have hproper : ∀ lexeme ∈ first :: more, lexeme.Proper :=
    fun lexeme hmem => h.proper lexeme (hrest ▸ mem_append_left _ hmem)
  have hspells := h.spells hrest
  have hwrites := hspells.writes_trim (closed_flat hproper)
  have hall : (first.token :: flat more).map Token.spelling = spellings (first :: more) := by
    rw [tail_cons] at hbare
    rw [flat_of_bare hbare]
    simp [spellings]
  rw [hall, ← hsource] at hspells
  rw [← map_cons, hall, ← hsource] at hwrites
  refine Writes.parenthesized hwrites (fun s hs => ?_) fun heq => ?_
  · obtain ⟨lexeme, hmem, rfl⟩ := mem_map.mp hs
    unfold Spelling.isComment Token.spelling
    rw [Spelling.cls_of]
    exact (hproper lexeme hmem).1
  · rw [heq] at hspells
    have htokens := tokens?_of_spells hspells fun s hs => by
      simp only [mem_cons, not_mem_nil, or_false] at hs
      rcases hs with rfl | rfl <;> exact ⟨by decide, by decide⟩
    exact absurd htokens (of_decide_eq_false hempty)

namespace Render

variable {width : Nat} {node : Node} {key : Text} {property : Property}

theorem given?_of_property? (h : node.property? key = some property)
    (hvalue : trim property.value ≠ []) : given? node key = some property.value := by
  have hblank : property.isBlank = false := by
    unfold Property.isBlank
    simpa using hvalue
  unfold given?
  rw [h]
  simp [hblank]

theorem given?_of_none (h : node.property? key = none) : given? node key = none := by
  unfold given?
  rw [h]
  rfl

theorem given?_of_blank (h : node.property? key = some property)
    (hvalue : trim property.value = []) : given? node key = none := by
  have hblank : property.isBlank := by
    unfold Property.isBlank
    simp [hvalue]
  unfold given?
  rw [h]
  simp [hblank]

theorem required_of_property? (h : node.property? key = some property)
    (hvalue : trim property.value ≠ []) : required node key = .ok property.value := by
  unfold required
  rw [given?_of_property? h hvalue]

theorem mapM_ok (texts : List Text) :
    (texts.map Except.ok : List Rendered).mapM id = .ok texts := by
  induction texts with
  | nil => rfl
  | cons text texts ih =>
    rw [map_cons, mapM_cons, ih]
    rfl

/-- The children of a part are rendered, and their texts put down the spellings. -/
structure Filled (like : Likeness) (part : Part) (ks : List Spelling) : Prop where
  filled : ∃ texts kss, part.children = texts.map .ok ∧ List.Forall₂ (Says like) texts kss ∧
    kss.flatten = ks

variable {script : Script} {hs ks : List Spelling} {part : Part}

theorem body_puts (width : Nat) (h : script.Puts like hs) (hpart : Filled like part ks) :
    ∃ after, body width part script = .ok after ∧ after.Puts like (hs ++ braced ks) := by
  obtain ⟨texts, kss, hchildren, htexts, rfl⟩ := hpart.filled
  have hopened : (script.word "\x7b").Puts like (hs ++ [mark "\x7b"]) := by
    refine h.word ⟨_, ⟨.lone (by decide) (.done rfl), by decide, rfl⟩, .mark "\x7b"⟩
  unfold body
  rw [hchildren, mapM_ok]
  refine ⟨_, rfl, rfl, ?_⟩
  obtain ⟨-, ss, hwrites, hshows⟩ := hopened
  obtain ⟨tt, hspells, hshows'⟩ := spells_lines width htexts
  have hfeed : (texts.flatMap (fun text => '\n' :: Layout.indent width text) ++
      "\n\x7d").head?.all (· = '\n') := by
    cases texts <;> rfl
  refine ⟨ss ++ (tt ++ [mark "\x7d"]), ⟨?_, ?_, ?_⟩, ?_⟩
  · refine hwrites.spells.append hspells ?_ fun _ => hfeed
    cases texts <;> rfl
  · have hlast : (texts.flatMap (fun text => '\n' :: Layout.indent width text) ++
        "\n\x7d").getLast? = some '\x7d' := by
      rw [getLast?_append]
      rfl
    dsimp only [Script.close]
    rw [getLast?_append, hlast]
    rfl
  · rw [← append_assoc, getLast?_concat]
    rfl
  · unfold braced
    have hall := hshows.append (hshows'.append (.mark "\x7d"))
    simpa using hall

theorem part?_hit {parts : List Part} (h : sameIgnoringCase part.branch.label label) :
    part? (part :: parts) label = some part := by
  unfold part?
  rw [find?_cons, h]

theorem part?_miss {parts : List Part} (h : sameIgnoringCase part.branch.label label = false) :
    part? (part :: parts) label = part? parts label := by
  unfold part?
  rw [find?_cons, h]

theorem render_eq (node : Node) :
    render width node = statement width node (renderBranches width node.branches) := by
  cases node
  rw [render]

theorem renderBranches_cons (branch : Node) (rest : List Node) :
    renderBranches width (branch :: rest) =
      ⟨branch, renderEach width branch.children⟩ :: renderBranches width rest := by
  cases branch
  rw [renderBranches]

variable {ls ts : List Spelling} {first : Part} {parts : List Part}

theorem requiredPart_hit (h : sameIgnoringCase first.branch.label label) :
    requiredPart node (first :: parts) label = .ok first := by
  unfold requiredPart
  rw [part?_hit h]

/-- What is written after a body: nothing, or a handler. -/
def HandlerPuts (like : Likeness) (width : Nat) (node : Node) (parts : List Part)
    (ls : List Spelling) : Prop :=
  ∀ script ks, script.Puts like ks →
    ∃ after, handler width node parts script = .ok after ∧ after.Puts like (ks ++ ls)

theorem handler_none (hfirst : first.branch.label = BranchLabel.body) :
    HandlerPuts like width node [first] [] := by
  intro script ks hputs
  have hnone : part? [first] BranchLabel.onFail = none := by
    rw [part?_miss (by rw [hfirst]; decide)]
    rfl
  unfold handler
  rw [hnone]
  exact ⟨script, rfl, hputs.congr (append_nil ks).symm⟩

/-- What the branch of a handler binds, as it is written between its keywords and its body. -/
inductive BindingPuts (like : Likeness) (branch : Node) : List Spelling → Prop
  | nothing (htype : branch.property? Key.errorType = none)
      (hname : branch.property? Key.errorVariable = none) : BindingPuts like branch []
  | error {typeName name : Text} {ts ls : List Spelling}
      (htype : branch.property? Key.errorType = some (.ofType typeName))
      (hname : branch.property? Key.errorVariable = some (.ofIdentifier name))
      (htyped : Puts like (trim typeName) ts) (hnamed : Puts like (trim name) ls) :
      BindingPuts like branch (ts ++ ls)

theorem handler_puts (hfirst : first.branch.label = BranchLabel.body)
    (hlabel : part.branch.label = BranchLabel.onFail) (hpart : Filled like part ks)
    (hbinding : BindingPuts like part.branch ts) :
    HandlerPuts like width node [first, part] (keyword "on" :: keyword "fail" :: ts ++ braced ks) := by
  intro script hs h
  have hfound : part? [first, part] BranchLabel.onFail = some part := by
    rw [part?_miss (by rw [hfirst]; decide), part?_hit (by rw [hlabel]; decide)]
  have hwords := (h.word (.keyword (a := "on") (by decide))).word (.keyword (a := "fail") (by decide))
  unfold handler
  rw [hfound]
  dsimp only
  cases hbinding with
  | nothing htype hname =>
    obtain ⟨after, hbody, hputs⟩ := body_puts width hwords hpart
    rw [given?_of_none htype, given?_of_none hname]
    exact ⟨after, hbody, by simpa using hputs⟩
  | error htype hname htyped hnamed =>
    obtain ⟨after, hbody, hputs⟩ := body_puts width ((hwords.word htyped).word hnamed) hpart
    rw [given?_of_property? htype htyped.ne_nil, given?_of_property? hname hnamed.ne_nil]
    exact ⟨after, hbody, by simpa using hputs⟩

theorem guarded_puts (h : script.Puts like hs) (hfirst : first.branch.label = BranchLabel.body)
    (hpart : Filled like first ks) (hhandler : HandlerPuts like width node (first :: parts) ls) :
    ∃ text, guarded width node (first :: parts) script = .ok text ∧
      Puts like text (hs ++ (braced ks ++ ls)) := by
  obtain ⟨middle, hbody, hputs⟩ := body_puts width h hpart
  obtain ⟨after, hafter, hputs'⟩ := hhandler middle _ hputs
  unfold guarded
  rw [requiredPart_hit (by rw [hfirst]; decide)]
  simp only [bind, Except.bind, hbody, hafter]
  exact ⟨_, rfl, append_assoc hs _ _ ▸ hputs'.text⟩

variable {condition : Text} {cs : List Spelling}

def alternative (width : Nat) (parts : List Part) (script : Script) : Rendered :=
  match part? parts BranchLabel.whenFalse with
  | none => pure script.text
  | some part =>
    let script := script.word "else"
    match part.branch.children, part.children with
    | [single], [text] => do
      if single.kind = .cond then pure (script.word (← text)).text
      else pure (← body width part script).text
    | _, _ => do pure (← body width part script).text

def ElsePuts (like : Likeness) (width : Nat) (parts : List Part) (ls : List Spelling) : Prop :=
  ∀ script ks, script.Puts like ks →
    ∃ text, alternative width parts script = .ok text ∧ Puts like text (ks ++ ls)

theorem conditional_puts (hcondition : node.property? Key.condition = some (.ofExpression condition))
    (hne : trim condition ≠ []) (hputs : Puts like (parenthesized condition) cs)
    (hfirst : first.branch.label = BranchLabel.whenTrue) (hpart : Filled like first ks)
    (helse : ElsePuts like width (first :: parts) ls) :
    ∃ text, conditional width node (first :: parts) = .ok text ∧
      Puts like text (keyword "if" :: cs ++ (braced ks ++ ls)) := by
  have hif := (Script.puts_first (.keyword (a := "if") (by decide))).word hputs
  obtain ⟨after, hbody, hafter⟩ := body_puts width hif hpart
  obtain ⟨text, htext, hputs'⟩ := helse after _ hafter
  unfold conditional
  rw [required_of_property? hcondition hne, requiredPart_hit (by rw [hfirst]; decide)]
  simp only [bind, Except.bind, Property.ofExpression, hbody]
  exact ⟨text, htext, by simpa using hputs'⟩

theorem else_none (hfirst : first.branch.label = BranchLabel.whenTrue) :
    ElsePuts like width [first] [] := by
  intro script ks hputs
  have hnone : part? [first] BranchLabel.whenFalse = none := by
    rw [part?_miss (by rw [hfirst]; decide)]
    rfl
  unfold alternative
  rw [hnone]
  exact ⟨_, rfl, hputs.text.congr (append_nil ks).symm⟩

/-- The one child is a condition. -/
def isChained (part : Part) : Bool :=
  match part.branch.children with
  | [single] => single.kind = .cond
  | _ => false

section

variable (hfirst : first.branch.label = BranchLabel.whenTrue)
  (hlabel : part.branch.label = BranchLabel.whenFalse)

include hfirst hlabel

theorem part?_whenFalse : part? [first, part] BranchLabel.whenFalse = some part := by
  rw [part?_miss (by rw [hfirst]; decide), part?_hit (by rw [hlabel]; decide)]

theorem else_fallback (hlast : Filled like part ls) (hplain : isChained part = false) :
    ElsePuts like width [first, part] (keyword "else" :: braced ls) := by
  intro script ks hputs
  obtain ⟨after, hbody, hafter⟩ :=
    body_puts width (hputs.word (.keyword (a := "else") (by decide))) hlast
  unfold isChained at hplain
  unfold alternative
  rw [part?_whenFalse hfirst hlabel]
  refine ⟨after.text, ?_, by simpa using hafter.text⟩
  dsimp only
  split
  · next single _ hsingle _ =>
    rw [hsingle] at hplain
    rw [if_neg (of_decide_eq_false hplain), hbody]
    rfl
  · rw [hbody]
    rfl

theorem else_chained {single : Node} {text : Text} (hsingle : part.branch.children = [single])
    (hkind : single.kind = .cond) (hchildren : part.children = [.ok text])
    (htext : Puts like text ls) : ElsePuts like width [first, part] (keyword "else" :: ls) := by
  intro script ks hputs
  have helse := (hputs.word (.keyword (a := "else") (by decide))).word htext
  unfold alternative
  rw [part?_whenFalse hfirst hlabel]
  simp only [hsingle, hchildren, if_pos hkind]
  exact ⟨_, rfl, by simpa using helse.text⟩

end

theorem endStatement_puts (h : script.Puts like ks) :
    Puts like (endStatement script) (ks ++ [mark ";"]) :=
  (h.close (by decide)).text

theorem declaration_puts {isFinal : Bool} {typeName name : Text}
    (hfinal : node.hasFlag .final = isFinal)
    (htype : node.property? Key.type = some (.ofType typeName))
    (hname : node.property? Key.name = some (.ofIdentifier name))
    (hvalue : node.property? Key.value = some (.ofExpression value))
    (htyped : Puts like (trim typeName) ts) (hnamed : Puts like (trim name) ls)
    (hgiven : (trim value = [] ∧ vs = []) ∨ ∃ ks, vs = mark "=" :: ks ∧ Puts like
      (trim value) ks) :
    ∃ text, declaration node = .ok text ∧ Puts like text
      ((if isFinal then [keyword "final"] else []) ++ (ts ++ ls ++ vs) ++ [mark ";"]) := by
  have hbinding : (Script.binding (if node.hasFlag .final then ({} : Script).word "final" else {})
      typeName name).Puts like ((if isFinal then [keyword "final"] else []) ++ (ts ++ ls)) := by
    rw [hfinal]
    cases isFinal with
    | false => exact (Script.puts_first htyped).word hnamed
    | true =>
      exact (((Script.puts_first (.keyword (by decide))).word htyped).word
        hnamed).congr (by simp)
  unfold declaration
  rw [required_of_property? htype htyped.ne_nil, required_of_property? hname hnamed.ne_nil]
  refine ⟨_, rfl, ?_⟩
  rcases hgiven with ⟨hblank, rfl⟩ | ⟨ks, rfl, hputs⟩
  · rw [given?_of_blank hvalue hblank]
    exact (endStatement_puts hbinding).congr (by simp)
  · rw [given?_of_property? hvalue hputs.ne_nil]
    exact (endStatement_puts ((hbinding.word .equals).word hputs)).congr (by simp)

theorem assignment_puts {target : Text}
    (hname : node.property? Key.name = some (.ofIdentifier target))
    (hvalue : node.property? Key.value = some (.ofExpression value))
    (htarget : Puts like (trim target) ts) (hputs : Puts like (trim value) vs) :
    ∃ text, assignment node = .ok text ∧
      Puts like text (ts ++ mark "=" :: (vs ++ [mark ";"])) := by
  unfold assignment
  rw [required_of_property? hname htarget.ne_nil, required_of_property? hvalue hputs.ne_nil]
  refine ⟨_, rfl, ?_⟩
  exact (endStatement_puts (((Script.puts_first htarget).word .equals).word hputs)).congr (by simp)

theorem raised_puts {word : Text} (hword : isWord word)
    (hvalue : node.property? Key.expression = some (.ofExpression value))
    (hputs : Puts like (trim value) vs) :
    ∃ text, raised word node = .ok text ∧
      Puts like text (keyword word :: (vs ++ [mark ";"])) := by
  unfold raised
  rw [required_of_property? hvalue hputs.ne_nil]
  refine ⟨_, rfl, ?_⟩
  exact (endStatement_puts ((Script.puts_first (.keyword hword)).word hputs)).congr (by simp)

theorem returned_puts (htype : node.property? Key.type = none)
    (hvalue : node.property? Key.expression = some (.ofExpression value))
    (hputs : Puts like (trim value) vs) :
    ∃ text, returned node = .ok text ∧
      Puts like text (keyword "return" :: (vs ++ [mark ";"])) := by
  unfold returned
  rw [given?_of_none htype, given?_of_property? hvalue hputs.ne_nil]
  refine ⟨_, rfl, ?_⟩
  exact (endStatement_puts ((Script.puts_first (.keyword (by decide))).word hputs)).congr (by simp)

theorem expression_puts (hnone : node.property? Key.expression = none)
    (hvalue : node.property? Key.statement = some (.ofExpression value))
    (hputs : Puts like (trim value) vs)
    (hlast : (trim value).getLast? ≠ some ';' ∧ (trim value).getLast? ≠ some '\x7d') :
    ∃ text, expression node = .ok text ∧ Puts like text (vs ++ [mark ";"]) := by
  unfold expression
  rw [given?_of_none hnone, given?_of_property? hvalue hputs.ne_nil]
  dsimp only [Option.or]
  rw [if_neg (fun h => h.elim hlast.1 hlast.2)]
  exact ⟨_, rfl, endStatement_puts (Script.puts_first hputs)⟩

end Render

end Flowchart
