import Flowchart.Proofs.Agreement
import Flowchart.Proofs.Placing

/-!
Trees that differ only in where their tokens stand. Two texts are alike when they are cut into the
same tokens, two expressions when they have the same shape and alike texts, and one list of statements
mirrors another when they agree statement by statement and block by block. Tokens that are spelled
alike are read as expressions that are alike.
-/
namespace Flowchart

open List

variable {token : Token} {text : Text} {ss : List Spelling} {mark : Mark}
  {tokens inner tokens' : List Token}

namespace Text

/-- The tokens of a text by their classes and texts. -/
def tokens? (text : Text) : Option (List (TokenClass × Text)) :=
  (Token.scan text).toOption.map fun tokens => tokens.map fun token => (token.cls, token.text)

def Alike (a b : Text) : Prop := ∃ tokens, tokens? a = some tokens ∧ tokens? b = some tokens

def enclosed (tokens : List (TokenClass × Text)) : List (TokenClass × Text) :=
  (TokenClass.symbol, ("(" : Text)) :: (tokens ++ [(TokenClass.symbol, (")" : Text))])

/-- The texts are cut into the same tokens, up to one pair of parentheses around all of them. -/
def AlikeInside (a b : Text) : Prop :=
  ∃ tokens tokens', tokens? a = some tokens ∧ tokens? b = some tokens' ∧
    (tokens' = tokens ∨ tokens' = enclosed tokens ∨ tokens = enclosed tokens')

/-- A semicolon is among the tokens of the text. -/
def hasSemicolon (text : Text) : Bool :=
  (tokens? text).any fun tokens => tokens.contains (.symbol, ";")

end Text

/-- The same callee, up to the blanks in a resource path. -/
def Callee.Alike : Callee → Callee → Prop
  | .function qualifier name, .function qualifier' name' => qualifier = qualifier' ∧ name = name'
  | .remote target method, .remote target' method' => target = target' ∧ method = method'
  | .resource target path method, .resource target' path' method' =>
    target = target' ∧ Text.Alike path path' ∧ method = method'
  | _, _ => False

namespace Expr

mutual

def Alike : Expr → Expr → Prop
  | .check extent panics inner, .check extent' panics' inner' =>
    Text.Alike extent.source extent'.source ∧ panics = panics' ∧ inner.Alike inner'
  | .call extent callee args, .call extent' callee' args' =>
    Text.Alike extent.source extent'.source ∧ callee.Alike callee' ∧ AllAlike args args'
  | .other extent, .other extent' => Text.Alike extent.source extent'.source
  | _, _ => False

def AllAlike : List Expr → List Expr → Prop
  | [], [] => True
  | e :: rest, e' :: rest' => e.Alike e' ∧ AllAlike rest rest'
  | _, _ => False

end

def OptionAlike : Option Expr → Option Expr → Prop
  | none, none => True
  | some e, some e' => e.Alike e'
  | _, _ => False

end Expr

namespace Statement

/-- Statements without blocks that agree in everything but where their tokens stand. -/
def PlainAlike : Statement → Statement → Prop
  | .varDecl extent isFinal typeName name init, .varDecl extent' isFinal' typeName' name' init' =>
    Text.Alike extent.source extent'.source ∧ isFinal = isFinal' ∧ Text.Alike typeName typeName' ∧
      name = name' ∧ Expr.OptionAlike init init'
  | .assign extent target value, .assign extent' target' value' =>
    Text.Alike extent.source extent'.source ∧ Text.Alike target target' ∧ value.Alike value'
  | .ret extent value, .ret extent' value' =>
    Text.Alike extent.source extent'.source ∧ Expr.OptionAlike value value'
  | .exitLoop extent, .exitLoop extent' => Text.Alike extent.source extent'.source
  | .nextRound extent, .nextRound extent' => Text.Alike extent.source extent'.source
  | .panic extent value, .panic extent' value' =>
    Text.Alike extent.source extent'.source ∧ value.Alike value'
  | .fail extent value, .fail extent' value' =>
    Text.Alike extent.source extent'.source ∧ value.Alike value'
  | .expression extent value, .expression extent' value' =>
    Text.Alike extent.source extent'.source ∧ value.Alike value'
  | _, _ => False

/-- An assignment whose target reaches past a semicolon. -/
def overreaches : Statement → Bool
  | .assign _ target _ => Text.hasSemicolon target
  | _ => false

end Statement

/-- The statements of what follows the block of a condition. A further condition counts as a block with
just this condition in it. -/
def Otherwise.statements : Otherwise → List Statement
  | .nothing => []
  | .cond extent condition body otherwise => [.cond extent condition body otherwise]
  | .block body => body.statements

def Otherwise.isNothing : Otherwise → Bool
  | .nothing => true
  | _ => false

def Handler.statements : Handler → List Statement
  | .nothing => []
  | .onFail _ body => body.statements

/-- How closely the statements of two trees have to agree: which statements of the first may be missing
in the second, and what holds of two statements without blocks. With `strict`, texts are alike and no
comments stand among the statements of the second tree. -/
structure Likeness where
  strict : Bool
  omits : Statement → Bool
  plain : Statement → Statement → Prop

namespace Likeness

def texts (like : Likeness) (a b : Text) : Prop := like.strict = true → Text.Alike a b

def conditions (like : Likeness) (e e' : Expr) : Prop :=
  like.strict = true → Text.AlikeInside e.source e'.source

def exprs (like : Likeness) (e e' : Expr) : Prop := like.strict = true → e.Alike e'

/-- Both are left out, or both bind nothing, or both bind the error by alike types and the same
name. -/
def handlers (like : Likeness) : Handler → Handler → Prop
  | .nothing, .nothing => True
  | .onFail none _, .onFail none _ => True
  | .onFail (some (typeName, name)) _, .onFail (some (typeName', name')) _ =>
    like.texts typeName typeName' ∧ name = name'
  | _, _ => False

def exact : Likeness where
  strict := true
  omits := fun _ => false
  plain := Statement.PlainAlike

end Likeness

/-- The second list of statements has a statement for each one of the first that is not omitted, in the
same order, and these agree block by block. -/
inductive Mirrors (like : Likeness) : List Statement → List Statement → Prop
  | nil : Mirrors like [] []
  | omitted {statement : Statement} {rest rest' : List Statement}
      (homits : like.omits statement = true) (hrest : Mirrors like rest rest') :
      Mirrors like (statement :: rest) rest'
  | comment {extent : Extent} {lines : List Text} {rest rest' : List Statement}
      (hstrict : like.strict = false) (hrest : Mirrors like rest rest') :
      Mirrors like rest (.comment extent lines :: rest')
  | plain {statement statement' : Statement} {rest rest' : List Statement}
      (hplain : like.plain statement statement') (hrest : Mirrors like rest rest') :
      Mirrors like (statement :: rest) (statement' :: rest')
  | cond {extent extent' : Extent} {condition condition' : Expr} {body body' : Block}
      {otherwise otherwise' : Otherwise} {rest rest' : List Statement}
      (hcondition : like.conditions condition condition')
      (hbody : Mirrors like body.statements body'.statements)
      (hnothing : otherwise.isNothing = otherwise'.isNothing)
      (hotherwise : Mirrors like otherwise.statements otherwise'.statements)
      (hrest : Mirrors like rest rest') :
      Mirrors like (.cond extent condition body otherwise :: rest)
        (.cond extent' condition' body' otherwise' :: rest')
  | loop {extent extent' : Extent} {condition condition' : Expr} {body body' : Block}
      {handler handler' : Handler} {rest rest' : List Statement}
      (hcondition : like.conditions condition condition')
      (hbody : Mirrors like body.statements body'.statements)
      (hhandlers : like.handlers handler handler')
      (hhandler : Mirrors like handler.statements handler'.statements)
      (hrest : Mirrors like rest rest') :
      Mirrors like (.loop extent condition body handler :: rest)
        (.loop extent' condition' body' handler' :: rest')
  | each {extent extent' : Extent} {typeName typeName' name : Text} {collection collection' : Expr}
      {body body' : Block} {handler handler' : Handler} {rest rest' : List Statement}
      (htyped : like.texts typeName typeName') (hcollection : like.exprs collection collection')
      (hbody : Mirrors like body.statements body'.statements)
      (hhandlers : like.handlers handler handler')
      (hhandler : Mirrors like handler.statements handler'.statements)
      (hrest : Mirrors like rest rest') :
      Mirrors like (.each extent typeName name collection body handler :: rest)
        (.each extent' typeName' name collection' body' handler' :: rest')
  | attempt {extent extent' : Extent} {body body' : Block} {handler handler' : Handler}
      {rest rest' : List Statement} (hbody : Mirrors like body.statements body'.statements)
      (hhandlers : like.handlers handler handler')
      (hhandler : Mirrors like handler.statements handler'.statements)
      (hrest : Mirrors like rest rest') :
      Mirrors like (.attempt extent body handler :: rest) (.attempt extent' body' handler' :: rest')
  | lock {extent extent' : Extent} {body body' : Block} {handler handler' : Handler}
      {rest rest' : List Statement} (hbody : Mirrors like body.statements body'.statements)
      (hhandlers : like.handlers handler handler')
      (hhandler : Mirrors like handler.statements handler'.statements)
      (hrest : Mirrors like rest rest') :
      Mirrors like (.lock extent body handler :: rest) (.lock extent' body' handler' :: rest')

/-- The spelling of a token that is neither a comment nor runs over several lines. -/
def Spelling.Clean (s : Spelling) : Prop := s.cls ≠ .comment ∧ '\n' ∉ s.text

theorem Token.eq_of_clean (h : token.spelling.Clean) :
    (token.cls, token.text) = (token.spelling.cls, token.spelling.text) := by
  obtain ⟨cls, text, start, stop⟩ := token
  unfold Token.spelling at h ⊢
  cases cls with
  | word | number | symbol => rfl
  | comment => exact absurd rfl h.1
  | quoted =>
    unfold Spelling.of at h ⊢
    dsimp only at h ⊢
    split at h
    · exact absurd (by decide) h.2
    · next hfeed => rw [if_neg hfeed]

namespace Text

theorem tokens?_of_spells (h : Spells text ss) (hclean : ∀ s ∈ ss, s.Clean) :
    tokens? text = some (ss.map fun s => (s.cls, s.text)) := by
  obtain ⟨tokens, hcuts, rfl⟩ := h.cuts {}
  unfold tokens?
  rw [Token.scan_eq_ok_iff.mpr hcuts]
  refine congrArg some ?_
  rw [map_map]
  refine map_congr_left fun token hmem => ?_
  exact Token.eq_of_clean (hclean _ (mem_map_of_mem hmem))

theorem hasSemicolon_of_spells (h : Spells text ss) (hmem : ⟨.symbol, ";"⟩ ∈ ss) :
    hasSemicolon text := by
  obtain ⟨tokens, hcuts, rfl⟩ := h.cuts {}
  obtain ⟨token, htoken, hspelling⟩ := mem_map.mp hmem
  have hclean : token.spelling.Clean := by
    rw [hspelling]
    exact ⟨by decide, by decide⟩
  unfold hasSemicolon tokens?
  rw [Token.scan_eq_ok_iff.mpr hcuts]
  refine contains_iff_mem.mpr (mem_map.mpr ⟨token, htoken, ?_⟩)
  rw [Token.eq_of_clean hclean, hspelling]

theorem alike_of_spells {a b : Text} (ha : Spells a ss) (hb : Spells b ss)
    (hclean : ∀ s ∈ ss, s.Clean) : Alike a b :=
  ⟨_, tokens?_of_spells ha hclean, tokens?_of_spells hb hclean⟩

end Text

namespace Token

open Text

/-- The text before one of the tokens is cut into the tokens before it. -/
theorem Cuts.before {next : Token} {more : List Token} (h : Cuts mark text (tokens ++ next :: more)) :
    ∃ front back, text = front ++ back ∧ next.start = mark.after front ∧
      Cuts mark front tokens := by
  induction tokens generalizing mark text with
  | nil =>
    cases h with
    | token hgap hc htake hmore => exact ⟨_, _, rfl, rfl, .done hgap⟩
  | cons token tokens ih =>
    cases h with
    | @token _ gap rest _ after c cls _ hgap hc htake hmore =>
      obtain ⟨front, back, rfl, hstart, hfront⟩ := ih hmore
      obtain ⟨body, rfl, rfl⟩ := take?_split htake
      have hshort : take? c (body ++ front) = some (cls, c :: body, front) :=
        take?_keeps htake ⟨front, back, [], rfl, (append_nil front).symm, rfl, fun _ _ => rfl⟩
      refine ⟨gap ++ c :: (body ++ front), back, by simp, ?_, .token hgap hc hshort hfront⟩
      rw [hstart, Mark.after_append, ← cons_append, Mark.after_append]

/-- The last token of a text that ends in no blank, and the text before it. -/
theorem Cuts.last_eq {last : Token} (h : Cuts mark text (tokens ++ [last]))
    (hlast : text.getLast?.all (!isBlank ·)) :
    ∃ front, text = front ++ last.text ∧ Cuts mark front tokens ∧ last.start = mark.after front := by
  obtain ⟨front, rest, htext, hstart, hfront⟩ := h.before
  obtain ⟨before, back, rfl, -, hstop, hback⟩ := h.split
  rw [hstop] at hback
  cases hback with
  | @token _ gap rest text after c cls _ hgap hc htake hmore =>
    obtain ⟨body, rfl, rfl⟩ := take?_split htake
    cases hmore with
    | done hblank =>
      obtain rfl : after = [] := by
        rcases eq_nil_or_concat after with rfl | ⟨others, d, rfl⟩
        · rfl
        · rw [concat_eq_append] at hlast hblank
          rw [← append_assoc body, ← cons_append, ← append_assoc gap,
            ← append_assoc before, getLast?_concat, Option.all_some, Bool.not_eq_true']
            at hlast
          rw [all_isBlank_append, all_cons, Bool.and_eq_true, hlast] at hblank
          cases hblank.2.1
      rw [← append_assoc] at htext
      have hlength : (before ++ gap).length = front.length := by
        have hindex := congrArg Mark.index hstart
        rw [← Mark.after_append] at hindex
        exact Nat.add_left_cancel hindex
      obtain ⟨rfl, rfl⟩ := append_inj htext hlength
      exact ⟨before ++ gap, by simp, hfront, hstart⟩

end Token

namespace Source

open Token Text

variable {src : Source}

/-- The text from a token on, in a piece of the source. -/
theorem slice_cuts {before piece after : Text} (htext : src.text = before ++ (piece ++ after))
    (hcuts : Cuts (({} : Mark).after before) piece (token :: tokens)) :
    ∃ gap core, piece = gap ++ core ∧ token.start = ({} : Mark).after (before ++ gap) ∧
      src.slice token.start (({} : Mark).after (before ++ piece)) = core ∧ core ≠ [] ∧
      core.head?.all (!isBlank ·) ∧ Cuts token.start core (token :: tokens) := by
  cases hcuts with
  | @token _ gap rest text left c cls _ hgap hc htake hmore =>
    have hstart := (Mark.after_append {} before gap).symm
    rw [append_assoc, ← append_assoc before] at htext
    have hslice := slice_after htext
    rw [append_assoc, Mark.after_append _ before gap] at hslice
    refine ⟨gap, c :: rest, rfl, hstart, hslice, cons_ne_nil c rest, ?_, ?_⟩
    · rw [head?_cons, Option.all_some, hc]
      rfl
    · exact @Cuts.token _ [] rest _ _ c cls _ rfl hc htake hmore

theorem Lays.within {part : List Token} (h : src.Lays mark tokens) (hpart : part <:+: tokens) :
    ∃ mark, src.Lays mark part := by
  obtain ⟨before, after, rfl⟩ := hpart
  exact ⟨_, h.append.1.append.2⟩

/-- The text from the first of some tokens to the last one spells them. -/
theorem Lays.spells (h : src.Lays mark (token :: tokens)) :
    Spells (src.slice token.start (stopOf mark (token :: tokens)))
      ((token :: tokens).map Token.spelling) := by
  obtain ⟨before, piece, after, htext, rfl, hcuts, hstop⟩ := h
  obtain ⟨gap, core, -, -, hslice, -, -, hcore⟩ := slice_cuts htext hcuts
  rw [hstop, ← Mark.after_append, hslice]
  exact .of_cuts hcore

/-- The text from the first of some tokens up to the token after them is cut into them. -/
theorem Lays.cuts_upto {next : Token} {more : List Token}
    (h : src.Lays mark (token :: tokens ++ next :: more)) :
    ∃ mark, Cuts mark (src.slice token.start next.start) (token :: tokens) := by
  obtain ⟨before, piece, after, htext, rfl, hcuts, -⟩ := h
  obtain ⟨front, back, rfl, hnext, hfront⟩ := hcuts.before
  rw [append_assoc] at htext
  obtain ⟨gap, core, -, -, hslice, -, -, hcore⟩ := slice_cuts htext hfront
  rw [hnext, ← Mark.after_append, hslice]
  exact ⟨_, hcore⟩

end Source

namespace ExprReader

open Token Text

variable {src src' : Source}

section

variable {R : Token → Token → Prop}

/-- The parts before and inside the parentheses of two calls are in relation token by token. -/
def RelatedParts (R : Token → Token → Prop) (a b : List Token × List Token) : Prop :=
  Forall₂ R a.1 b.1 ∧ Forall₂ R a.2 b.2

variable (hsame : ∀ {a b : Token}, R a b → Same a b)

include hsame

theorem matchBack_related {depth : Nat} {inner' : List Token} (hinner : Forall₂ R inner inner')
    (htokens : Forall₂ R tokens tokens') :
    Option.Rel (RelatedParts R) (matchBack depth inner tokens) (matchBack depth inner' tokens') := by
  induction htokens generalizing depth inner inner' with
  | nil => exact .none
  | @cons a b as bs hfirst hrest ih =>
    unfold matchBack
    simp (disch := decide) only [(hsame hfirst).symm.is]
    split
    · exact ih (.cons hfirst hinner)
    · split
      · split
        · exact .some ⟨hrest, hinner⟩
        · exact ih (.cons hfirst hinner)
      · exact ih (.cons hfirst hinner)

theorem callParts?_related (h : Forall₂ R tokens tokens') :
    Option.Rel (RelatedParts R) (callParts? tokens) (callParts? tokens') := by
  have hreverse := rel_reverse h
  unfold callParts?
  generalize tokens.reverse = back, tokens'.reverse = back' at hreverse
  cases hreverse with
  | nil => exact .none
  | @cons last last' before before' hlast hbefore =>
    simp (disch := decide) only [(hsame hlast).symm.is]
    split
    · have hmatch : Option.Rel (RelatedParts R) (matchBack 0 [] before) (matchBack 0 [] before') :=
        matchBack_related hsame .nil hbefore
      generalize matchBack 0 [] before = found, matchBack 0 [] before' = found' at hmatch
      cases hmatch with
      | none => exact .none
      | @some parts parts' hparts =>
        obtain ⟨head, inner⟩ := parts
        obtain ⟨head', inner'⟩ := parts'
        obtain ⟨hhead, hinner⟩ := hparts
        cases hhead with
        | nil => exact .none
        | cons hfirst hrest => exact .some ⟨rel_reverse (.cons hfirst hrest), hinner⟩
    · exact .none

theorem splitCommas_related {depth : Nat} (h : Forall₂ R tokens tokens') :
    Forall₂ (Forall₂ R) (splitCommas depth tokens) (splitCommas depth tokens') := by
  induction h generalizing depth with
  | nil => exact .cons .nil .nil
  | @cons a b as bs hfirst _ ih =>
    have hsame := (hsame hfirst).symm
    unfold splitCommas
    simp (disch := decide) only [hsame.is, hsame.opens, hsame.closes]
    split
    · exact .cons .nil ih
    · have hgroups := @ih (if a.opens then depth + 1 else if a.closes then depth - 1 else depth)
      generalize splitCommas _ as = groups, splitCommas _ bs = groups' at hgroups
      cases hgroups with
      | nil => exact .cons (.cons hfirst .nil) .nil
      | cons hgroup hmore => exact .cons (.cons hfirst hgroup) hmore

theorem argumentGroups_related {inner' : List Token} (h : Forall₂ R inner inner') :
    Forall₂ (Forall₂ R) (argumentGroups inner) (argumentGroups inner') := by
  refine rel_filter ?_ (splitCommas_related hsame h)
  intro group group' hgroup
  cases hgroup <;> simp

end

theorem map_spelling_of_same (h : Forall₂ Same tokens tokens') :
    tokens.map Token.spelling = tokens'.map Token.spelling := by
  induction h with
  | nil => rfl
  | cons hfirst _ ih => rw [map_cons, map_cons, hfirst.spelling, ih]

theorem clean_of_subset {part : List Token} (hclean : ∀ token ∈ tokens, token.spelling.Clean)
    (hpart : part ⊆ tokens) : ∀ s ∈ part.map Token.spelling, s.Clean := by
  intro s hs
  obtain ⟨token, hmem, rfl⟩ := mem_map.mp hs
  exact hclean token (hpart hmem)

/-- The path of a resource stands between its target and its method. -/
theorem callee?_resource (target arrow slash : Token) (more : List Token) (hmore : more ≠ []) :
    callee? src (target :: arrow :: slash :: more) =
      match more.reverse with
      | method :: dot :: _ =>
        if target.isWord && arrow.is "->" && slash.is "/" && dot.is "." && method.isWord then
          some (.resource target.text (src.slice slash.start dot.start) method.text)
        else none
      | _ => none := by
  cases more with
  | nil => exact absurd rfl hmore
  | cons => rfl

theorem extentOf_spells (h : src.Lays mark tokens) (hne : tokens ≠ []) :
    Spells (extentOf src tokens).source (tokens.map Token.spelling) := by
  cases tokens with
  | nil => exact absurd rfl hne
  | cons first rest =>
    obtain ⟨last, hlast⟩ := Option.isSome_iff_exists.mp (getLast?_isSome.mpr hne)
    have hspells := h.spells
    unfold stopOf at hspells
    rw [hlast] at hspells
    unfold extentOf
    rw [hlast]
    exact hspells

theorem extentOf_alike {mark' : Mark} (hsame : Forall₂ Same tokens tokens') (hne : tokens ≠ [])
    (hclean : ∀ token ∈ tokens, token.spelling.Clean) (hlays : src.Lays mark tokens)
    (hlays' : src'.Lays mark' tokens') :
    Text.Alike (extentOf src tokens).source (extentOf src' tokens').source := by
  have hne' : tokens' ≠ [] := by
    rintro rfl
    cases hsame
    exact hne rfl
  have hspells' := extentOf_spells hlays' hne'
  rw [← map_spelling_of_same hsame] at hspells'
  exact alike_of_spells (extentOf_spells hlays hne) hspells'
    (clean_of_subset hclean (Subset.refl _))

/-- Runs of tokens of two sources from which alike expressions are read. Their tokens are in relation
one by one, parts that are in relation are such runs too, and the texts from end to end are alike. -/
structure Companions (src src' : Source) where
  tokens : Token → Token → Prop
  runs : List Token → List Token → Prop
  same {a b : Token} (h : tokens a b) : Same a b
  related {a b : List Token} (h : runs a b) : Forall₂ tokens a b
  within {a b part part' : List Token} (h : runs a b) (hpart : part <:+: a) (hpart' : part' <:+: b)
    (hrelated : Forall₂ tokens part part') : runs part part'
  extents {a b : List Token} (h : runs a b) :
    Text.Alike (extentOf src a).source (extentOf src' b).source
  paths {first first' next next' : Token} {a b : List Token}
    (h : runs (first :: (a ++ [next])) (first' :: (b ++ [next']))) :
    Text.Alike (src.slice first.start next.start) (src'.slice first'.start next'.start)

theorem Companions.callee? (pairs : Companions src src') {head head' : List Token}
    (h : pairs.runs head head') :
    Option.Rel Callee.Alike (callee? src head) (callee? src' head') := by
  generalize hhead : head = tokens, hhead' : head' = tokens'
  have hrelated := pairs.related h
  rw [hhead, hhead'] at hrelated
  cases hrelated with
  | nil => exact .none
  | @cons first first' _ _ hfirst hrest =>
  have hone := pairs.same hfirst
  cases hrest with
  | nil =>
    unfold ExprReader.callee?
    dsimp only
    rw [← hone.isWord]
    split
    · next hword => exact .some ⟨rfl, hone.text_of_isWord hword⟩
    · exact .none
  | @cons second second' _ _ hsecond hrest =>
  have htwo := pairs.same hsecond
  cases hrest with
  | nil => exact .none
  | @cons third third' more more' hthird hmore =>
  have hthree := pairs.same hthird
  by_cases hnil : more = []
  · subst hnil
    cases hmore
    unfold ExprReader.callee?
    simp (disch := decide) only [htwo.symm.is, hone.symm.isWord, hthree.symm.isWord]
    split
    · next hwords =>
      rw [Bool.and_eq_true] at hwords
      have hfirst := hone.text_of_isWord hwords.1
      have hthird := hthree.text_of_isWord hwords.2
      split
      · exact .some ⟨congrArg some hfirst, hthird⟩
      · split
        · exact .some ⟨hfirst, hthird⟩
        · exact .none
    · exact .none
  · have hnil' : more' ≠ [] := by
      rintro rfl
      cases hmore
      exact hnil rfl
    rw [callee?_resource _ _ _ _ hnil, callee?_resource _ _ _ _ hnil']
    have hback := rel_reverse hmore
    generalize hmore : more.reverse = back, hmore' : more'.reverse = back' at hback
    cases hback with
    | nil => exact .none
    | @cons method method' _ _ hmethod hrest =>
    cases hrest with
    | nil => exact .none
    | @cons dot dot' path path' hdot hpath =>
    simp (disch := decide) only [hone.symm.isWord, htwo.symm.is, hthree.symm.is,
      (pairs.same hdot).symm.is, (pairs.same hmethod).symm.isWord]
    split
    · next hshape =>
      simp only [Bool.and_eq_true] at hshape
      refine .some ⟨hone.text_of_isWord hshape.1.1.1.1, ?_,
        (pairs.same hmethod).text_of_isWord hshape.2⟩
      have hsplit : head = [first, second] ++ third :: (path.reverse ++ [dot]) ++ [method] := by
        rw [hhead, ← reverse_reverse more, hmore]
        simp
      have hsplit' : head' =
          [first', second'] ++ third' :: (path'.reverse ++ [dot']) ++ [method'] := by
        rw [hhead', ← reverse_reverse more', hmore']
        simp
      refine pairs.paths (pairs.within h ⟨_, _, hsplit.symm⟩ ⟨_, _, hsplit'.symm⟩ ?_)
      exact .cons hthird (rel_append (rel_reverse hpath) (.cons hdot .nil))
    · exact .none

theorem allAlike_map {R : Token → Token → Prop} {groups groups' : List (List Token)}
    {read read' : List Token → Expr} (hrelated : Forall₂ (Forall₂ R) groups groups')
    (hread : ∀ group ∈ groups, ∀ group' ∈ groups', Forall₂ R group group' →
      (read group).Alike (read' group')) :
    Expr.AllAlike (groups.map read) (groups'.map read') := by
  induction hrelated with
  | nil => exact trivial
  | cons hfirst _ ih =>
    refine ⟨hread _ mem_cons_self _ mem_cons_self hfirst, ih ?_⟩
    intro group hgroup group' hgroup'
    exact hread group (mem_cons_of_mem _ hgroup) group' (mem_cons_of_mem _ hgroup')

/-- Companion tokens form expressions that are alike. -/
theorem Companions.ofTokens (pairs : Companions src src') {bound : Nat}
    (h : pairs.runs tokens tokens') :
    (ofTokens src bound tokens).Alike (ofTokens src' bound tokens') := by
  induction bound generalizing tokens tokens' with
  | zero => exact pairs.extents h
  | succ bound ih =>
    have hextent := pairs.extents h
    have hrelated := pairs.related h
    cases hrelated with
    | nil => exact hextent
    | @cons first first' _ _ hfirst hrest =>
    cases hrest with
    | nil => exact hextent
    | @cons second second' more more' hsecond hmore =>
    unfold ExprReader.ofTokens
    simp (disch := decide) only [(pairs.same hfirst).symm.is]
    split
    · refine ⟨hextent, rfl, ih (pairs.within h ?_ ?_ (.cons hsecond hmore))⟩
      · exact (suffix_cons first _).isInfix
      · exact (suffix_cons first' _).isInfix
    · have hparts := callParts?_related pairs.same (pairs.related h)
      generalize hcall : callParts? (first :: second :: more) = parts,
        hcall' : callParts? (first' :: second' :: more') = parts' at hparts
      cases hparts with
      | none => exact hextent
      | @some pair pair' hpair =>
      obtain ⟨head, inner⟩ := pair
      obtain ⟨head', inner'⟩ := pair'
      obtain ⟨opening, closing, hsplit, -⟩ := callParts?_eq_some hcall
      obtain ⟨opening', closing', hsplit', -⟩ := callParts?_eq_some hcall'
      have hhead : head <:+: first :: second :: more := ⟨[], _, hsplit.symm⟩
      have hhead' : head' <:+: first' :: second' :: more' := ⟨[], _, hsplit'.symm⟩
      have hcallee := pairs.callee? (pairs.within h hhead hhead' hpair.1)
      dsimp only
      generalize ExprReader.callee? src head = callee, ExprReader.callee? src' head' = callee'
        at hcallee
      cases hcallee with
      | none => exact hextent
      | some hcallee =>
        refine ⟨hextent, hcallee, allAlike_map (argumentGroups_related pairs.same hpair.2) ?_⟩
        intro group hgroup group' hgroup' hgroups
        exact ih (pairs.within h (argument_within hcall hgroup).1
          (argument_within hcall' hgroup').1 hgroups)

/-- Tokens that are spelled alike and stand next to each other in the two sources. -/
def laidCompanions (src src' : Source) : Companions src src' where
  tokens := Same
  runs a b := Forall₂ Same a b ∧ (∀ token ∈ a, token.spelling.Clean) ∧
    (∃ mark, src.Lays mark a) ∧ ∃ mark, src'.Lays mark b
  same h := h
  related h := h.1
  within := by
    rintro a b part part' ⟨-, hclean, ⟨_, hlays⟩, _, hlays'⟩ hpart hpart' hrelated
    exact ⟨hrelated, fun token hmem => hclean token (hpart.subset hmem), hlays.within hpart,
      hlays'.within hpart'⟩
  extents := by
    rintro a b ⟨hsame, hclean, ⟨_, hlays⟩, _, hlays'⟩
    cases hsame with
    | nil => exact ⟨[], rfl, rfl⟩
    | cons hfirst hrest =>
      exact extentOf_alike (.cons hfirst hrest) (cons_ne_nil _ _) hclean hlays hlays'
  paths := by
    rintro first first' next next' a b ⟨hsame, hclean, ⟨_, hlays⟩, _, hlays'⟩
    have hspelling := congrArg dropLast (map_spelling_of_same hsame)
    simp only [← map_dropLast, ← cons_append, dropLast_concat] at hspelling
    obtain ⟨_, hcuts⟩ := hlays.cuts_upto
    obtain ⟨_, hcuts'⟩ := hlays'.cuts_upto
    refine alike_of_spells (.of_cuts hcuts) (hspelling ▸ .of_cuts hcuts') (clean_of_subset hclean ?_)
    rw [← cons_append]
    exact subset_append_left _ _

/-- Tokens that are spelled alike and stand next to each other form expressions that are alike. -/
theorem ofTokens_alike {bound : Nat} {mark' : Mark} (hsame : Forall₂ Same tokens tokens')
    (hclean : ∀ token ∈ tokens, token.spelling.Clean) (hlays : src.Lays mark tokens)
    (hlays' : src'.Lays mark' tokens') :
    (ofTokens src bound tokens).Alike (ofTokens src' bound tokens') :=
  (laidCompanions src src').ofTokens ⟨hsame, hclean, ⟨mark, hlays⟩, mark', hlays'⟩

end ExprReader

end Flowchart
