import Flowchart.Proofs.PlainRendering

/-!
Statements with blocks, rendered and read again. What is rendered from a statement puts down the
spellings of its parts, one after the other, so that the grammar finds the same statement in the
rendered text. The induction follows the grammar: every phrase of the file is written, and what
follows it in the file does not change what it is read as.
-/
namespace Flowchart

open Text Statement

open List hiding beq_eq_decide

open Lexeme Token StatementReader

variable {c : Cursor} {ks : List Spelling} {statement : Statement} {rest : List Statement}
  {node : Node} {taken : List Lexeme} {condition : Expr}

variable {like : Likeness} {setting : Setting} {width : Nat} {src : Source} {body : Block} {make :
  Extent → Block → Handler → Statement}

/-- What is written does not start with an else, and starts a handler only where the file has one too. -/
structure Leads (like : Likeness) (ks : List Spelling) (c : Cursor) : Prop where
  noElse : ∀ tail, Spelling.begin ["else"] (ks ++ tail) = false
  noHandler : ∀ tail, Spelling.begin ["on", "fail"] (ks ++ tail) = true →
    like.strict = true ∧ Spelling.begin ["on", "fail"] (spellings c.rest) = true

/-- A statement without a handler is not followed by one in the file. -/
def Follows (ending : Ending) (c : Cursor) : Prop :=
  ending.noHandler = true → Spelling.begin ["on", "fail"] (spellings c.rest) = false

theorem Follows.allows {ending : Ending} (h : Follows ending c) (hleads : Leads like ks c)
    (tail : List Spelling) : ending.Allows (ks ++ tail) := by
  refine ⟨fun _ => hleads.noElse tail, fun hhandler => eq_false_of_ne_true fun hbegin => ?_⟩
  exact Bool.false_ne_true ((h hhandler).symm.trans (hleads.noHandler tail hbegin).2)

theorem Leads.of_keyword {word : Text} (c : Cursor) (helse : word ≠ "else") (hon : word ≠ "on") :
    Leads like (keyword word :: ks) c := by
  refine ⟨fun tail => ?_, fun tail hbegin => ?_⟩
  · have hfirst : "else" ≠ (keyword word).text := Ne.symm helse
    rw [cons_append, Spelling.begin_cons, decide_eq_false hfirst]
    rfl
  · have hfirst : "on" ≠ (keyword word).text := Ne.symm hon
    rw [cons_append, Spelling.begin_cons, decide_eq_false hfirst] at hbegin
    cases hbegin

theorem Leads.closing (c : Cursor) : Leads like ([] ++ [mark "\x7d"]) c := by
  refine ⟨fun tail => ?_, fun tail hbegin => ?_⟩
  · rfl
  · cases hbegin

/-- Where comments or left out statements stand in between, a handler is not started at all. -/
theorem Leads.loose (h : Leads like ks c) (hstrict : like.strict = false) (c' : Cursor) :
    Leads like ks c' :=
  ⟨h.noElse, fun tail hbegin =>
    absurd ((h.noHandler tail hbegin).1.symm.trans hstrict) (by decide)⟩

theorem Leads.append (h : Leads like ks c) (more : List Spelling) : Leads like (ks ++ more) c := by
  refine ⟨fun tail => ?_, fun tail hbegin => ?_⟩
  · rw [append_assoc]
    exact h.noElse _
  · rw [append_assoc] at hbegin
    exact h.noHandler _ hbegin

/-- The statement is written between two cursors of the file. -/
structure Written (like : Likeness) (setting : Setting) (width : Nat) (statement : Statement)
    (c c' : Cursor) (ks : List Spelling) (ending : Ending) : Prop where
  nonempty : ks ≠ []
  finds : FindsStatement like ks ending statement
  leads : Leads like ks c
  follows : Follows ending c'
  renders : ∃ node text, statement.node? setting = some node ∧
    Render.render width node = .ok text ∧ Puts like text ks ∧
    (node.kind = .cond → ∃ extent condition body otherwise,
      statement = .cond extent condition body otherwise ∧ ending.noHandler = false ∧
      Finds like ks ending (CondFound like condition body otherwise))

def Treated (like : Likeness) (setting : Setting) (width : Nat) (statement : Statement)
    (c c' : Cursor) : Prop :=
  (like.omits statement = true ∧ statement.node? setting = none) ∨
    ∃ ks ending, Written like setting width statement c c' ks ending

/-- If one node is left of the statements and it is a condition, the condition stands for all of
them. -/
def Sole (like : Likeness) (setting : Setting) (width : Nat) (statements : List Statement) : Prop :=
  ∀ single, nodes setting statements = [single] → single.kind = .cond →
    ∃ text ks ending condition body otherwise, Render.render width single = .ok text ∧
      Puts like text ks ∧ ending.noHandler = false ∧
      Finds like ks ending (CondFound like condition body otherwise) ∧
      ∀ found, (∀ extent, Mirrors like [.cond extent condition body otherwise] [found]) →
        Mirrors like statements [found]

structure AllWritten (like : Likeness) (setting : Setting) (width : Nat)
    (statements : List Statement) (ks : List Spelling) : Prop where
  lines : Lines like statements ks
  texts : ∃ texts kss, Render.renderEach width (nodes setting statements) =
    texts.map .ok ∧ List.Forall₂ (Says like) texts kss ∧ kss.flatten = ks
  sole : Sole like setting width statements

/-- What follows the block of a condition, or the block that it guards, is written. -/
structure HandlerWritten (like : Likeness) (setting : Setting) (width : Nat) (handler : Handler)
    (c' : Cursor) (hs : List Spelling) (ending : Ending) : Prop where
  finds : Finds like hs ending (HandlerFound like handler)
  follows : Follows ending c'
  puts : ∀ node first, first.branch.label = BranchLabel.body →
    Render.HandlerPuts like width node
      (first :: Render.renderBranches width (handlerBranches setting handler)) hs

structure OtherWritten (like : Likeness) (setting : Setting) (width : Nat) (otherwise : Otherwise)
    (os : List Spelling) (ending : Ending) : Prop where
  finds : Finds like os ending (OtherFound like otherwise)
  noHandler : ending.noHandler = false
  puts : ∀ first, first.branch.label = BranchLabel.whenTrue → Render.ElsePuts like width
    (first :: Render.renderBranches width (otherwiseBranches setting otherwise)) os

structure CondWritten (like : Likeness) (setting : Setting) (width : Nat) (condition : Expr)
    (body : Block) (otherwise : Otherwise) (ks : List Spelling) (ending : Ending) : Prop where
  finds : Finds like ks ending (CondFound like condition body otherwise)
  noHandler : ending.noHandler = false
  begins : ∃ more, ks = keyword "if" :: more
  puts : ∀ node, node.property? Key.condition = some (.ofExpression condition.unparenthesized) →
    ∃ text, Render.conditional width node (Render.renderBranches width
      (branch setting BranchLabel.whenTrue [] body ::
        otherwiseBranches setting otherwise)) = .ok text ∧ Puts like text ks

theorem StatementReader.Lines.mirrors_nil {statements : List Statement}
    (h : Lines like statements ks) (hks : ks = []) : Mirrors like statements [] := by
  induction h with
  | nil => exact .nil
  | omitted homits _ ih => exact .omitted homits (ih hks)
  | cons hne _ _ _ _ => exact absurd (append_eq_nil_iff.mp hks).1 hne

theorem AllWritten.nil : AllWritten like setting width [] [] where
  lines := .nil
  texts := ⟨[], [], by rw [nodes]; rfl, .nil, rfl⟩
  sole := by
    intro single hsingle
    cases hsingle

theorem AllWritten.omitted (homits : like.omits statement)
    (hnode : statement.node? setting = none) (hrest : AllWritten like setting width rest ks) :
    AllWritten like setting width (statement :: rest) ks := by
  have hnodes : nodes setting (statement :: rest) = nodes setting rest := by
    rw [nodes, hnode]
    rfl
  refine ⟨.omitted homits hrest.lines, hnodes ▸ hrest.texts, fun single hsingle hkind => ?_⟩
  obtain ⟨text, ks, ending, condition, body, otherwise, hrender, hputs, hending, hfinds, hsole⟩ :=
    hrest.sole single (hnodes ▸ hsingle) hkind
  exact ⟨text, ks, ending, condition, body, otherwise, hrender, hputs, hending, hfinds,
    fun found hfound => .omitted homits (hsole found hfound)⟩

theorem AllWritten.texts_cons {text : Text} {more : List Spelling}
    (hnode : statement.node? setting = some node) (hrender : Render.render width node = .ok text)
    (hputs : Says like text ks) (hrest : AllWritten like setting width rest more) :
    ∃ texts kss, Render.renderEach width (nodes setting (statement :: rest)) =
      texts.map .ok ∧ List.Forall₂ (Says like) texts kss ∧ kss.flatten = ks ++ more := by
  obtain ⟨texts, kss, htexts, hsaid, rfl⟩ := hrest.texts
  refine ⟨text :: texts, ks :: kss, ?_, .cons hputs hsaid, rfl⟩
  rw [nodes, hnode, Option.toList_some, singleton_append, Render.renderEach, hrender,
    htexts, map_cons]

theorem AllWritten.cons {statement : Statement} {rest : List Statement} {c c₁ : Cursor}
    {ks more : List Spelling} {ending : Ending}
    (hwritten : Written like setting width statement c c₁ ks ending)
    (hrest : AllWritten like setting width rest more)
    (hleads : Leads like (more ++ [mark "\x7d"]) c₁) :
    AllWritten like setting width (statement :: rest) (ks ++ more) := by
  obtain ⟨node, text, hnode, hrender, hputs, hcond⟩ := hwritten.renders
  refine ⟨.cons hwritten.nonempty hwritten.finds (fun tail => ?_) hrest.lines,
    hrest.texts_cons hnode hrender hputs.says, fun single hsingle hkind => ?_⟩
  · have hallows := hwritten.follows.allows hleads tail
    rwa [append_assoc] at hallows
  · rw [nodes, hnode] at hsingle
    rw [Option.toList_some, singleton_append] at hsingle
    obtain ⟨rfl, hnone⟩ := List.cons.inj hsingle
    obtain ⟨extent, condition, body, otherwise, rfl, hending, hfinds⟩ := hcond hkind
    refine ⟨text, ks, ending, condition, body, otherwise, hrender, hputs, hending, hfinds,
      fun found hfound => ?_⟩
    have hempty : more = [] := by
      obtain ⟨texts, kss, htexts, hsaid, rfl⟩ := hrest.texts
      rw [hnone] at htexts
      obtain rfl := map_eq_nil_iff.mp htexts.symm
      cases hsaid
      rfl
    exact (hfound extent).append (hrest.lines.mirrors_nil hempty)

namespace Statement

theorem branch_label (setting : Setting) (label : Text) (properties : Properties) (block : Block) :
    (branch setting label properties block).label = label := by
  cases block
  rfl

theorem branch_children (setting : Setting) (label : Text) (properties : Properties) (block : Block) :
    (branch setting label properties block).children = nodes setting block.statements := by
  cases block
  rfl

theorem branch_properties (setting : Setting) (label : Text) (properties : Properties) (block : Block) :
    (branch setting label properties block).properties = Properties.insertAll [] properties := by
  cases block
  rfl

end Statement

theorem AllWritten.filled (label : Text) (properties : Properties)
    (h : AllWritten like setting width body.statements ks) :
    Render.Filled like ⟨branch setting label properties body,
      Render.renderEach width (branch setting label properties body).children⟩ ks := by
  refine ⟨?_⟩
  rw [branch_children]
  exact h.texts

theorem begins_of_spellings (hsits : Sits src c)
    (h : Spelling.begin ["on", "fail"] (spellings c.rest)) :
    (c.at? "on" && c.peekSecond?.any (·.is "fail")) := by
  unfold Cursor.at? Cursor.peek? Cursor.peekSecond?
  unfold spellings at h
  rcases hrest : c.rest with _ | ⟨first, _ | ⟨second, more⟩⟩
  · rw [hrest] at h
    cases h
  · rw [hrest, map_cons, Spelling.begin_cons, Bool.and_eq_true] at h
    cases h.2
  · rw [hrest, map_cons, map_cons, Spelling.begin_cons, Spelling.begin_cons,
      Bool.and_eq_true, Bool.and_eq_true, decide_eq_true_eq, decide_eq_true_eq] at h
    have hproper := hsits.proper first (by rw [hrest]; simp)
    have hproper' := hsits.proper second (by rw [hrest]; simp)
    have hon : first.token.is "on" :=
      decide_eq_true ((text_eq_iff hproper.1 (by decide)).mpr h.1.symm)
    have hfail : second.token.is "fail" :=
      decide_eq_true ((text_eq_iff hproper'.1 (by decide)).mpr h.2.1.symm)
    rw [Bool.and_eq_true]
    exact ⟨hon, hfail⟩

namespace HandlerWritten

theorem nothing (hsits : Sits src c) (h : (c.at? "on" && c.peekSecond?.any (·.is "fail")) = false) :
    HandlerWritten like setting width .nothing c [] { noHandler := true } where
  finds := finds_unhandled
  follows := fun _ => eq_false_of_ne_true fun hbegin =>
    Bool.false_ne_true (h.symm.trans (begins_of_spellings hsits hbegin))
  puts := by
    intro node first hfirst
    exact Render.handler_none hfirst

theorem onFail {c c' : Cursor} {rest : List Lexeme} {binding : Option (Text × Text)}
    (hsits : Sits src c) (hrest : c.rest = taken ++ rest) (hfit : Fit like taken)
    (hbinds : Binds src rest taken binding) (h : AllWritten like setting width body.statements ks) :
    HandlerWritten like setting width (.onFail binding body) c'
      (keyword "on" :: keyword "fail" :: spellings taken ++ braced ks) {} where
  finds := finds_handled (binding_found hsits hrest hfit hbinds) h.lines
  follows := nofun
  puts := by
    intro node first hfirst
    rw [handlerBranches, Render.renderBranches_cons]
    refine Render.handler_puts hfirst (branch_label ..) (h.filled ..) ?_
    have hproperty (key : Text) : (branch setting BranchLabel.onFail
        (Walker.bindingProperties binding) body).property? key =
          (Properties.insertAll [] (Walker.bindingProperties binding)).get? key := by
      rw [Node.property?, branch_properties]
    cases hbinds with
    | nothing => exact .nothing (hproperty _) (hproperty _)
    | error _ htyped hname =>
      rw [append_assoc] at hrest
      obtain ⟨c₁, -, hrest₁, hsits₁⟩ := hsits.take hrest
      rw [spellings_append]
      exact .error (hproperty _) (hproperty _)
        (hsits.puts_names hrest (hfit.of_subset (subset_append_left _ _)) htyped)
        (hsits₁.puts_word hrest₁)

end HandlerWritten

/-- The condition can be written in parentheses, and is found again there. -/
structure ConditionWritten (like : Likeness) (condition : Expr) (cs : List Spelling) : Prop where
  found : ExprFound like cs (like.conditions condition)
  nonblank : trim condition.unparenthesized ≠ []
  puts : Puts like (Render.parenthesized condition.unparenthesized) cs

theorem condition_written {rest : List Lexeme} (hsits : Sits src c) (hrest : c.rest = taken ++ rest)
    (hfit : Fit like taken) (hbare : ∀ lexeme ∈ taken.tail, lexeme.comments = [])
    (hcondition : ExprReader.Forms src "\x7b" taken condition)
    (hempty : condition.isEmptyParens = false) : ∃ cs, ConditionWritten like condition cs := by
  obtain ⟨hne, cs, hcs, hputs⟩ := hsits.puts_condition hrest hbare hcondition hempty
  exact ⟨cs, condition_found hsits hrest hfit hcondition hcs, hne, hputs⟩

theorem CondWritten.of_other {otherwise : Otherwise} {cs bs os : List Spelling} {ending : Ending}
    (hcondition : ConditionWritten like condition cs)
    (hbody : AllWritten like setting width body.statements bs)
    (hother : OtherWritten like setting width otherwise os ending) :
    CondWritten like setting width condition body otherwise
      (keyword "if" :: cs ++ (braced bs ++ os)) ending where
  finds := finds_conditional hcondition.found hbody.lines hother.finds
  noHandler := hother.noHandler
  begins := ⟨_, rfl⟩
  puts := by
    intro node hproperty
    rw [Render.renderBranches_cons]
    exact Render.conditional_puts hproperty hcondition.nonblank hcondition.puts (branch_label ..)
      (hbody.filled ..) (hother.puts _ (branch_label ..))

namespace OtherWritten

theorem nothing : OtherWritten like setting width .nothing [] { noElse := true } where
  finds := finds_alone
  noHandler := rfl
  puts := by
    intro first hfirst
    exact Render.else_none hfirst

theorem chained {inner : Expr} {innerBody : Block} {innerOtherwise : Otherwise}
    {is : List Spelling} {ending : Ending} (extent : Extent)
    (hinner : CondWritten like setting width inner innerBody innerOtherwise is ending) :
    OtherWritten like setting width (.cond extent inner innerBody innerOtherwise)
      (keyword "else" :: is) ending where
  finds := finds_chained rfl hinner.finds fun _ hfound => hfound extent
  noHandler := hinner.noHandler
  puts := by
    intro first hfirst
    obtain ⟨text, htext, hputs⟩ := hinner.puts
      ((Walker.conditional inner (Draft.begun extent)).withBranches
        (branch setting BranchLabel.whenTrue [] innerBody ::
          otherwiseBranches setting innerOtherwise)).toNode rfl
    refine Render.else_chained hfirst rfl rfl rfl ?_ hputs
    change Render.renderEach width [_] = _
    exact congrArg (· :: []) htext

theorem block {last : Block} {ls : List Spelling}
    (hlast : AllWritten like setting width last.statements ls) :
    ∃ os ending, OtherWritten like setting width (.block last) os ending := by
  have hlabel := branch_label setting BranchLabel.whenFalse [] last
  have hchildren := branch_children setting BranchLabel.whenFalse [] last
  have hparts : Render.renderBranches width (otherwiseBranches setting (.block last)) =
      [⟨branch setting BranchLabel.whenFalse [] last, Render.renderEach width
        (branch setting BranchLabel.whenFalse [] last).children⟩] := by
    rw [otherwiseBranches, Render.renderBranches_cons, Render.renderBranches]
  cases hsole : Render.isChained ⟨branch setting BranchLabel.whenFalse [] last,
      Render.renderEach width (branch setting BranchLabel.whenFalse [] last).children⟩ with
  | false =>
    refine ⟨_, {}, finds_fallback rfl hlast.lines, rfl, fun first hfirst => ?_⟩
    rw [hparts]
    exact Render.else_fallback hfirst hlabel (hlast.filled ..) hsole
  | true =>
    unfold Render.isChained at hsole
    rw [hchildren] at hsole
    split at hsole
    · next single hnodes =>
      obtain ⟨text, ks, ending, inner, innerBody, innerOtherwise, hrender, hputs, hending, hfinds,
        hmirrors⟩ := hlast.sole single hnodes (of_decide_eq_true hsole)
      refine ⟨_, ending, finds_chained rfl hfinds hmirrors, hending, fun first hfirst => ?_⟩
      rw [hparts]
      refine Render.else_chained hfirst hlabel (hchildren.trans hnodes) (of_decide_eq_true hsole) ?_
        hputs
      rw [hchildren, hnodes, Render.renderEach, hrender]
      rfl
    · cases hsole

end OtherWritten

/-- What stands before the body of a statement with a handler is written. -/
structure HeadWritten (like : Likeness) (setting : Setting) (width : Nat)
    (make : Extent → Block → Handler → Statement) (ks : List Spelling) : Prop where
  found : HeadFound like ks make
  begins : ∃ word more, ks = keyword word :: more ∧ word ≠ "else" ∧ word ≠ "on"
  renders : ∀ extent body handler, ∃ node script,
    (make extent body handler).node? setting = some node ∧ node.kind ≠ .cond ∧
    Render.render width node = Render.guarded width node (Render.renderBranches width
      (branch setting BranchLabel.body [] body :: handlerBranches setting handler)) script ∧
    script.Puts like ks

namespace Written

variable {body : Block} {handler : Handler} {c' : Cursor} {bs hs : List Spelling}
  {ending : Ending}

theorem cond {otherwise : Otherwise} {ks : List Spelling} (extent : Extent) (c c' : Cursor)
    (h : CondWritten like setting width condition body otherwise ks ending) :
    Written like setting width (.cond extent condition body otherwise) c c' ks ending := by
  obtain ⟨more, rfl⟩ := h.begins
  obtain ⟨text, htext, hputs⟩ := h.puts
    ((Walker.conditional condition (Draft.begun extent)).withBranches
      (branch setting BranchLabel.whenTrue [] body ::
        otherwiseBranches setting otherwise)).toNode rfl
  refine ⟨cons_ne_nil _ _, finds_cond extent h.finds, .of_keyword c (by decide) (by decide),
    fun hhandler => absurd (hhandler.symm.trans h.noHandler) (by decide), _, text,
    by rw [node?], ?_, hputs, fun _ => ⟨extent, condition, body, otherwise, rfl,
      h.noHandler, h.finds⟩⟩
  exact htext

/-- A head, a body and a handler are written one after the other. -/
theorem guarded {make : Extent → Block → Handler → Statement} (extent : Extent) (c : Cursor)
    (hhead : HeadWritten like setting width make ks)
    (hbody : AllWritten like setting width body.statements bs)
    (hhandler : HandlerWritten like setting width handler c' hs ending) :
    Written like setting width (make extent body handler) c c' (ks ++ (braced bs ++ hs)) ending := by
  obtain ⟨word, more, rfl, helse, hon⟩ := hhead.begins
  obtain ⟨node, script, hnode, hkind, hrender, hscript⟩ := hhead.renders extent body handler
  rw [Render.renderBranches_cons] at hrender
  obtain ⟨text, htext, hputs⟩ := Render.guarded_puts hscript (branch_label ..) (hbody.filled ..)
    (hhandler.puts node _ (branch_label ..))
  exact ⟨cons_ne_nil _ _, finds_guarded extent hhead.found hbody.lines hhandler.finds,
    .of_keyword c helse hon, hhandler.follows, node, text, hnode, hrender.trans htext, hputs,
    fun hcond => absurd hcond hkind⟩

end Written

/-- With a strict likeness, the tokens between two cursors are neither comments nor run over several
lines. -/
def FitBetween (like : Likeness) (c c' : Cursor) : Prop :=
  like.strict = true → ∀ tokens, Steps c tokens c' → ∀ token ∈ tokens, token.spelling.Clean

namespace FitBetween

variable {c₁ c' : Cursor} {tokens : List Token}

theorem left (h : FitBetween like c c') (hafter : Steps c₁ tokens c') : FitBetween like c c₁ :=
  fun hstrict _ hfront token hmem =>
    h hstrict _ (hfront.trans hafter) token (mem_append_left _ hmem)

theorem right (h : FitBetween like c c') (hbefore : Steps c tokens c₁) : FitBetween like c₁ c' :=
  fun hstrict _ hback token hmem =>
    h hstrict _ (hbefore.trans hback) token (mem_append_right _ hmem)

theorem fit (h : FitBetween like c c') (hsits : Sits src c) (htakes : c.Takes taken c') :
    Fit like taken := by
  intro hstrict lexeme hmem
  have hproper := hsits.proper lexeme (by rw [htakes.rest]; exact mem_append_left _ hmem)
  have hclean := h hstrict _ (.of_takes htakes)
  obtain ⟨before, after, rfl⟩ := append_of_mem hmem
  refine ⟨eq_nil_iff_forall_not_mem.mpr fun comment hcomment => ?_, ?_⟩
  · have hcls := (hclean comment (by simp [flat_append, flat, hcomment])).1
    unfold Token.spelling at hcls
    rw [Spelling.cls_of] at hcls
    exact hcls (of_decide_eq_true (hproper.2 comment hcomment))
  · exact hclean lexeme.token (by simp [flat_append, flat])

/-- The lexemes before a block, the block and what is read after it. -/
theorem around {c₂ : Cursor} (h : FitBetween like c c') (hsits : Sits src c)
    (htakes : c.Takes taken c₁) (hbody : Reads src (.block body) c₁ c₂)
    (hafter : ∃ tokens, Steps c₂ tokens c') :
    Fit like taken ∧ (Sits src c₁ ∧ FitBetween like c₁ c₂) ∧ Sits src c₂ ∧ FitBetween like c₂ c' := by
  obtain ⟨others, hafter⟩ := hafter
  obtain ⟨tokens, hsteps⟩ := hbody.steps
  have hsits₁ := (hsits.takes htakes).1
  have hback := h.right (.of_takes htakes)
  exact ⟨(h.left (hsteps.trans hafter)).fit hsits htakes, ⟨hsits₁, hback.left hafter⟩,
    (hsits₁.reads hbody).1, hback.right hsteps⟩

end FitBetween

/-- No comments stand in the text. -/
def Text.isBare (text : Text) : Bool :=
  (tokens? text).any fun tokens => tokens.all fun token => token.1 ≠ .comment

/-- The statements that can be written: what their own parts have to be like. The statements in their
blocks are looked at on their own. -/
structure Writable (like : Likeness) (setting : Setting) (width : Nat)
    (good : Statement → Prop) : Prop where
  omits : like.strict = true → ∀ statement, like.omits statement = false
  plain : ∀ {src : Source} {c c' : Cursor} {first : Token} {taken : List Lexeme} {make : Shape},
    Sits src c → c.Takes (⟨[], first⟩ :: taken) c' → Fit like (⟨[], first⟩ :: taken) →
    first.is "\x7d" = false → Plain src c'.rest (⟨[], first⟩ :: taken) make →
    good (make (src.extent first.start c'.last)) →
    Treated like setting width (make (src.extent first.start c'.last)) c c'
  cond : ∀ {extent condition body otherwise}, good (.cond extent condition body otherwise) →
    condition.isEmptyParens = false ∧ (like.strict = false → isBare condition.source = true)
  loop : ∀ {extent condition body handler}, good (.loop extent condition body handler) →
    condition.isEmptyParens = false ∧ (like.strict = false → isBare condition.source = true)
  comment : ∀ {extent lines}, good (.comment extent lines) → like.strict = false ∧
    like.omits (.comment extent lines) = true ∧
    ∃ node text, node? setting (.comment extent lines) = some node ∧
      node.kind ≠ .cond ∧ Render.render width node = .ok text ∧ Says like text []
  invalid : ∀ {extent}, ¬ good (.invalid extent)

theorem bare_of_isBare {stop : Text} {rest : List Lexeme} (hsits : Sits src c)
    (hrest : c.rest = taken ++ rest) (hcondition : ExprReader.Forms src stop taken condition)
    (h : isBare condition.source) : ∀ lexeme ∈ taken.tail, lexeme.comments = [] := by
  obtain ⟨first, more, rfl⟩ := exists_cons_of_ne_nil hcondition.nonempty
  have hspells := hsits.spells hrest
  rw [TypeText.slice_eq_extentOf, ← ExprReader.source_ofTokens (first :: more).length,
    ← hcondition.value] at hspells
  obtain ⟨tokens, hcuts, htokens⟩ := hspells.cuts {}
  unfold isBare tokens? at h
  rw [Token.scan_eq_ok_iff.mpr hcuts] at h
  have hplain : ∀ token ∈ tokens, token.cls ≠ .comment := by
    intro token hmem
    have hall := all_eq_true.mp h (token.cls, token.text) (mem_map_of_mem hmem)
    exact of_decide_eq_true hall
  intro lexeme hlexeme
  refine eq_nil_iff_forall_not_mem.mpr fun comment hcomment => ?_
  rw [tail_cons] at hlexeme
  have hmem : comment.spelling ∈ tokens.map Token.spelling := by
    rw [htokens]
    obtain ⟨before, after, rfl⟩ := append_of_mem hlexeme
    exact mem_map_of_mem (by simp [flat_append, flat, hcomment])
  obtain ⟨token, htoken, hspelling⟩ := mem_map.mp hmem
  have hcls := congrArg Spelling.cls hspelling
  unfold Token.spelling at hcls
  rw [Spelling.cls_of, Spelling.cls_of] at hcls
  have hproper := hsits.proper lexeme (by
    rw [hrest]
    simp [hlexeme])
  exact hplain token htoken (hcls.trans (of_decide_eq_true (hproper.2 comment hcomment)))

theorem condition_after {first : Lexeme} {rest : List Lexeme} (hsits : Sits src c)
    (hrest : c.rest = first :: taken ++ rest) (hfit : Fit like (first :: taken))
    (hcondition : ExprReader.Forms src "\x7b" taken condition)
    (hgood : condition.isEmptyParens = false ∧ (like.strict = false → isBare condition.source =
      true)) : ∃ cs, ConditionWritten like condition cs := by
  have hstart : c.rest = [first] ++ (taken ++ rest) := hrest
  obtain ⟨c₀, -, hrest₀, hsits₀⟩ := hsits.take hstart
  have hfit₀ := hfit.of_subset (subset_cons_self first taken)
  refine condition_written hsits₀ hrest₀ hfit₀ ?_ hcondition hgood.1
  cases hstrict : like.strict with
  | true => exact fun lexeme hmem => (hfit₀ hstrict lexeme (mem_of_mem_tail hmem)).1
  | false => exact bare_of_isBare hsits₀ hrest₀ hcondition (hgood.2 hstrict)

def StatementReader.Phrase.within : Phrase → List Statement
  | .statement found => found.within
  | .statements found => allWithin found
  | .block found => found.within
  | .handler found => found.within
  | .conditional _ body otherwise => body.within ++ otherwise.within
  | .other found => found.within

theorem StatementReader.Head.within_eq {rest : List Lexeme} (h : Head src rest taken make)
    (extent : Extent) (body : Block) (handler : Handler) : (make extent body handler).within =
      make extent body handler :: (body.within ++ handler.within) := by
  cases h <;> rfl

def StatementReader.Phrase.Treated (like : Likeness) (setting : Setting) (width : Nat)
    (good : Statement → Prop) (c c' : Cursor) : Phrase → Prop
  | .statement found =>
    c.rest.head?.any (·.token.is "\x7d") = false → Flowchart.Treated like setting width found c c'
  | .statements found =>
    ∃ ks, AllWritten like setting width found ks ∧ Leads like (ks ++ [mark "\x7d"]) c
  | .block found => ∃ ks, AllWritten like setting width found.statements ks
  | .handler found => ∃ hs ending, HandlerWritten like setting width found c' hs ending
  | .conditional condition body otherwise =>
    ∀ extent, good (.cond extent condition body otherwise) →
      ∃ ks ending, CondWritten like setting width condition body otherwise ks ending
  | .other found => ∃ os ending, OtherWritten like setting width found os ending

variable {good : Statement → Prop} {phrase : Phrase} {c' : Cursor}

theorem AllWritten.comment {text : Text} (homits : like.omits statement)
    (hnode : statement.node? setting = some node) (hkind : node.kind ≠ .cond)
    (hrender : Render.render width node = .ok text) (hputs : Says like text [])
    (hrest : AllWritten like setting width rest ks) :
    AllWritten like setting width (statement :: rest) ks := by
  refine ⟨.omitted homits hrest.lines, hrest.texts_cons hnode hrender hputs,
    fun single hsingle hcond => ?_⟩
  rw [nodes, hnode, Option.toList_some] at hsingle
  exact absurd ((List.cons.inj hsingle).1 ▸ hcond) hkind

theorem head_written {rest : List Lexeme} {extent : Extent} {handler : Handler}
    (hgood : Writable like setting width good) (hsits : Sits src c) (hrest : c.rest = taken ++ rest)
    (hfit : Fit like taken) (h : Head src rest taken make) (hself : good (make extent body handler))
    : ∃ ks, HeadWritten like setting width make ks := by
  cases h with
  | loop hkeyword hcondition =>
    obtain ⟨cs, hcs⟩ := condition_after hsits hrest hfit hcondition (hgood.loop hself)
    have hscript := (Script.puts_first (.keyword (a := "while") (by decide))).word hcs.puts
    refine ⟨_, head_loop hcs.found, ⟨_, _, rfl, by decide, by decide⟩, fun extent body handler =>
      ⟨_, _, by rw [node?], (by decide : NodeKind.loop ≠ .cond), ?_, hscript⟩⟩
    change (Render.required _ Key.condition >>= _) = _
    rw [Render.required_of_property? rfl hcs.nonblank]
    rfl
  | @each _ name word typed taken _ _ hkeyword htyped hname hword hcollection =>
    obtain ⟨a, b, d, ⟨hresta, hsitsa⟩, ⟨hrestb, hsitsb⟩, hrestd, hsitsd⟩ := hsits.each_parts hrest
    have hfitTyped : Fit like typed := hfit.of_subset fun _ hmem => by simp [hmem]
    have hfitTaken : Fit like taken := hfit.of_subset fun _ hmem => by simp [hmem]
    have htypes := hsitsa.puts_names hresta hfitTyped htyped
    have hnames : Puts like (trim name.token.text) [keyword name.token.text] :=
      Token.spelling_of_isWord hname ▸ hsitsb.puts_word hrestb
    have htaken := hsitsd.puts_forms hrestd hfitTaken hcollection
    have hscript := ((((Script.puts_first (.keyword (a := "foreach") (by decide))).word htypes).word
      hnames).word (.keyword (a := "in") (by decide))).word htaken
    refine ⟨_, head_each (type_found hsitsa hresta hfitTyped htyped hname)
      (expr_found hsitsd hrestd hfitTaken hcollection), ⟨_, _, rfl, by decide, by decide⟩,
      fun extent body handler => ⟨_, _, by rw [node?], (by decide : NodeKind.each ≠ .cond), ?_,
        hscript.congr (by simp)⟩⟩
    change (Render.required _ Key.type >>= _) = _
    rw [Render.required_of_property? rfl htypes.ne_nil]
    rw [Render.required_of_property? rfl hnames.ne_nil]
    rw [Render.required_of_property? rfl htaken.ne_nil]
    rfl
  | attempt hkeyword =>
    exact ⟨_, head_attempt, ⟨_, _, rfl, by decide, by decide⟩, fun extent body handler =>
      ⟨_, _, by rw [node?], (by decide : NodeKind.errorHandler ≠ .cond), Render.render_eq _,
        Script.puts_first (.keyword (by decide))⟩⟩
  | lock hkeyword =>
    exact ⟨_, head_lock, ⟨_, _, rfl, by decide, by decide⟩, fun extent body handler =>
      ⟨_, _, by rw [node?], (by decide : NodeKind.lock ≠ .cond), Render.render_eq _,
        Script.puts_first (.keyword (by decide))⟩⟩

/-- The lexemes before a body, the body and what follows it. -/
theorem guarded_parts {c₁ c₂ : Cursor} {after : Phrase} {A B : Prop} (hsits : Sits src c)
    (hfit : FitBetween like c c') (htakes : c.Takes taken c₁)
    (hbody : Reads src (.block body) c₁ c₂) (hafter : Reads src after c₂ c')
    (hall : ∀ other ∈ body.within ++ after.within, good other)
    (ihbody : Sits src c₁ → FitBetween like c₁ c₂ → (∀ other ∈ body.within, good other) → A)
    (ihafter : Sits src c₂ → FitBetween like c₂ c' → (∀ other ∈ after.within, good other) → B) :
    Fit like taken ∧ A ∧ B := by
  obtain ⟨hlexemes, ⟨hsits₁, hfit₁⟩, hsits₂, hfit₂⟩ := hfit.around hsits htakes hbody hafter.steps
  obtain ⟨hleft, hright⟩ := forall_mem_append.mp hall
  exact ⟨hlexemes, ihbody hsits₁ hfit₁ hleft, ihafter hsits₂ hfit₂ hright⟩

/-- Every phrase of statements that can be written is written. -/
theorem StatementReader.Reads.treated (hgood : Writable like setting width good)
    (h : Reads src phrase c c') (hsits : Sits src c) (hfit : FitBetween like c c')
    (hall : ∀ statement ∈ phrase.within, good statement) :
    phrase.Treated like setting width good c c' := by
  induction h with
  | plain htakes hplain =>
    intro hbrace
    rw [htakes.rest] at hbrace
    exact hgood.plain hsits htakes (hfit.fit hsits htakes) hbrace hplain
      (hall _ (mem_within _))
  | cond hfirst hcond ih =>
    intro _
    obtain ⟨ks, ending, hwritten⟩ := ih hsits hfit
      (forall_mem_cons.mp hall).2 _
      (hall _ mem_cons_self)
    exact .inr ⟨ks, ending, .cond _ _ _ hwritten⟩
  | guarded htakes hhead hbody hhandler ihbody ihhandler =>
    intro _
    rw [Phrase.within, hhead.within_eq] at hall
    obtain ⟨hself, hall⟩ := forall_mem_cons.mp hall
    obtain ⟨hlexemes, ⟨bs, hbs⟩, hs, ending, hhs⟩ :=
      guarded_parts hsits hfit htakes hbody hhandler hall ihbody ihhandler
    obtain ⟨ks, hks⟩ := head_written hgood hsits htakes.rest hlexemes hhead hself
    exact .inr ⟨_, _, .guarded _ _ hks hbs hhs⟩
  | conditional htakes hkeyword hcondition hbody hother ihbody ihother =>
    intro extent hself
    obtain ⟨hlexemes, ⟨bs, hbs⟩, os, ending, hos⟩ :=
      guarded_parts hsits hfit htakes hbody hother hall ihbody ihother
    obtain ⟨cs, hcs⟩ := condition_after hsits htakes.rest hlexemes hcondition (hgood.cond hself)
    exact ⟨_, _, .of_other hcs hbs hos⟩
  | alone helse => exact ⟨_, _, .nothing⟩
  | chained htakes helse hnext hinner ih =>
    obtain ⟨hself, hall⟩ := forall_mem_cons.mp hall
    obtain ⟨is, ending, his⟩ := ih (hsits.takes htakes).1 (hfit.right (.of_takes htakes)) hall _ hself
    exact ⟨_, _, .chained _ his⟩
  | fallback htakes helse hlast ih =>
    obtain ⟨ls, hls⟩ := ih (hsits.takes htakes).1 (hfit.right (.of_takes htakes)) hall
    exact OtherWritten.block hls
  | unhandled hnone => exact ⟨_, _, .nothing hsits hnone⟩
  | @handled on fail taken binding body c c₁ c' htakes hon hfail hbinds hbody ih =>
    obtain ⟨tokens, hsteps⟩ := hbody.steps
    have hlexemes := (hfit.left hsteps).fit hsits htakes
    obtain ⟨ks, hks⟩ := ih (hsits.takes htakes).1 (hfit.right (.of_takes htakes)) hall
    have hrest : c.rest = [on, fail] ++ (taken ++ c₁.rest) := htakes.rest
    obtain ⟨a, -, hresta, hsitsa⟩ := hsits.take hrest
    exact ⟨_, _, .onFail hsitsa hresta (hlexemes.of_subset fun _ hmem => by simp [hmem]) hbinds hks⟩
  | block hopens hopening hbody hcloses hclosing ih =>
    obtain ⟨ks, hks, -⟩ := ih (hsits.takes hopens).1
      ((hfit.right (.of_takes hopens)).left (.of_takes hcloses)) hall
    exact ⟨ks, hks⟩
  | done hrest hclosing => exact ⟨[], .nil, .closing _⟩
  | comment hcomment hmore ih =>
    obtain ⟨first, run, lines, hsteps, rfl⟩ := comment?_steps hcomment
    obtain ⟨more, hrests, hleads⟩ := ih (hsits.lays hsteps).2 (hfit.right hsteps)
      fun statement hmem => hall statement (mem_append_right _ hmem)
    have hself := hall _ (mem_append_left _ (mem_within _))
    obtain ⟨hstrict, homits, node, text, hnode, hkind, hrender, hputs⟩ := hgood.comment hself
    exact ⟨more, .comment homits hnode hkind hrender hputs hrests, hleads.loose hstrict _⟩
  | cons hrest hfirst hstatement hmore ihstatement ihmore =>
    obtain ⟨tokens, hsteps⟩ := hstatement.steps
    obtain ⟨others, hsteps'⟩ := hmore.steps
    have htreated := ihstatement hsits (hfit.left hsteps')
      (fun statement hmem => hall statement (mem_append_left _ hmem))
      (by rw [hrest]; exact hfirst)
    obtain ⟨more, hrests, hleads⟩ := ihmore (hsits.reads hstatement).1 (hfit.right hsteps)
      fun statement hmem => hall statement (mem_append_right _ hmem)
    rcases htreated with ⟨homits, hnode⟩ | ⟨ks, ending, hwritten⟩
    · refine ⟨more, .omitted homits hnode hrests, hleads.loose ?_ _⟩
      refine eq_false_of_ne_true fun hstrict => ?_
      exact Bool.false_ne_true ((hgood.omits hstrict _).symm.trans homits)
    · refine ⟨ks ++ more, .cons hwritten hrests hleads, ?_⟩
      rw [append_assoc]
      exact hwritten.leads.append _
  | broken _ _ _ _ _ _ _ _ =>
    exact absurd (hall _ mem_cons_self) hgood.invalid

end Flowchart
