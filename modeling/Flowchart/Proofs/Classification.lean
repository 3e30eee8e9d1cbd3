import Flowchart.Proofs.Forming

/-!
What the shape of an expression says of its tokens. A check is its keyword and the tokens of what is
checked. A call is what it invokes and, in the parentheses that close with its last token, its arguments
with commas between them. The parentheses are found by going back and counting parentheses alone, while
arguments are split by counting all brackets.
-/
namespace Flowchart

open List Lexeme Token ExprReader

variable {src : Source} {tokens : List Token}

namespace Text

/-- The brackets of any kind that are open after the texts and so many before them. A closing one
without a partner is ignored. -/
def opened (depth : Nat) : List Text → Nat
  | [] => depth
  | text :: texts =>
    opened (if opens text then depth + 1 else if closes text then depth - 1 else depth) texts

/-- Every comma stands in brackets. -/
def CommaFree (depth : Nat) (texts : List Text) : Prop :=
  ∀ before after, texts = before ++ ("," : Text) :: after → opened depth before ≠ 0

/-- Arguments, none of them empty, with commas between, before and after them. -/
inductive Listed : List (List Text) → List Text → Prop
  | none : Listed [] []
  | comma {groups : List (List Text)} {texts : List Text} (hmore : Listed groups texts) :
      Listed groups (("," : Text) :: texts)
  | last {group : List Text} (hne : group ≠ []) : Listed [group] group
  | argument {group : List Text} {groups : List (List Text)} {texts : List Text}
      (hne : group ≠ []) (hmore : Listed groups texts) :
      Listed (group :: groups) (group ++ ("," : Text) :: texts)

/-- The texts of the tokens of a text without its comments. -/
def spelled? (text : Text) : Option (List Text) := (tokens? text).map proper

end Text

open Text

namespace ExprReader

variable {depth : Nat}

/-- Going back to the partner of a parenthesis, the parentheses between them are closed. -/
theorem parens_of_matchBack {inner before found : List Token}
    (h : matchBack depth inner tokens = some (before, found))
    (hparens : parens depth (textsOf inner)) : parens 0 (textsOf found) := by
  induction tokens generalizing depth inner with
  | nil => cases h
  | cons token tokens ih =>
    unfold matchBack at h
    split at h
    · next hclosing =>
      refine ih h ?_
      rw [textsOf_cons, is_iff.mp hclosing]
      exact hparens
    next hclosing =>
    split at h
    · next hopening =>
      split at h
      · cases h
        exact hparens
      · refine ih h ?_
        rw [textsOf_cons, is_iff.mp hopening]
        exact hparens
    · next hopening =>
      refine ih h ?_
      rw [textsOf_cons, parens.eq_def]
      dsimp only
      rwa [if_neg fun htext => hopening (is_iff.mpr htext),
        if_neg fun htext => hclosing (is_iff.mpr htext)]

theorem parens_of_callParts? {head inner : List Token} (h : callParts? tokens = some (head, inner)) :
    parens 0 (textsOf inner) := by
  unfold callParts? at h
  split at h
  · cases h
  split at h
  · split at h
    · next found hmatch =>
      split at h
      · cases h
      · cases h
        exact parens_of_matchBack hmatch rfl
    · cases h
  · cases h

variable {more : List (List Token)} {group : List Token}

theorem splitCommas_cases {token : Token} (h : splitCommas depth (token :: tokens) = group :: more)
    :
    (token.text = "," ∧ depth = 0 ∧ group = [] ∧ splitCommas depth tokens = more) ∨
    (¬ (token.text = "," ∧ depth = 0) ∧ ∃ rest, group = token :: rest ∧ splitCommas
      (if token.opens then depth + 1 else if token.closes then depth - 1 else depth) tokens =
        rest :: more) := by
  have hcomma : (token.is "," && depth == 0) ↔ token.text = "," ∧ depth = 0 := by
    rw [Bool.and_eq_true, beq_iff_eq, is_iff]
  unfold splitCommas at h
  split at h
  · next hsplits =>
    obtain ⟨rfl, rfl⟩ := List.cons.inj h
    exact .inl ⟨(hcomma.mp hsplits).1, (hcomma.mp hsplits).2, rfl, rfl⟩
  · next hsplits =>
    obtain ⟨rest, others, hrest, -⟩ := splitCommas_eq_cons
      (if token.opens then depth + 1 else if token.closes then depth - 1 else depth) tokens
    dsimp only at h
    rw [hrest] at h ⊢
    obtain ⟨rfl, rfl⟩ := List.cons.inj h
    exact .inr ⟨fun hboth => hsplits (hcomma.mpr hboth), rest, rfl, rfl⟩

/-- The groups between the commas are listed in what was split, whatever stands before the first. -/
theorem listed_splitCommas (front : List Token) (h : splitCommas depth tokens = group :: more) :
    Listed ((((front ++ group) :: more).filter fun group => !group.isEmpty).map textsOf)
      (textsOf (front ++ tokens)) := by
  induction tokens generalizing depth front group more with
  | nil =>
    cases h
    cases front with
    | nil => exact .none
    | cons token front => exact .last (cons_ne_nil _ _)
  | cons token tokens ih =>
    rcases splitCommas_cases h with ⟨hcomma, -, rfl, hmore⟩ | ⟨-, rest, rfl, hrest⟩
    · obtain ⟨first, others, hfirst, -⟩ := splitCommas_eq_cons depth tokens
      have hlisted := ih [] hfirst
      rw [nil_append, ← hfirst, hmore] at hlisted
      have htexts : textsOf (front ++ token :: tokens) =
          textsOf front ++ ("," : Text) :: textsOf tokens := by
        rw [← hcomma]
        exact map_append
      rw [htexts, append_nil]
      cases front with
      | nil => exact .comma hlisted
      | cons => exact .argument (cons_ne_nil _ _) hlisted
    · have hlisted := ih (front ++ [token]) hrest
      rwa [append_assoc, append_assoc] at hlisted

theorem commaFree_splitCommas (h : splitCommas depth tokens = group :: more) :
    CommaFree depth (textsOf group) ∧ ∀ other ∈ more, CommaFree 0 (textsOf other) := by
  have hnil (depth : Nat) : CommaFree depth [] := fun before after hsplit =>
    absurd hsplit.symm (append_ne_nil_of_right_ne_nil _ (cons_ne_nil _ _))
  induction tokens generalizing depth group more with
  | nil =>
    cases h
    exact ⟨hnil depth, forall_mem_nil _⟩
  | cons token tokens ih =>
    rcases splitCommas_cases h with ⟨-, rfl, rfl, hmore⟩ | ⟨hcomma, rest, rfl, hrest⟩
    · obtain ⟨first, others, hfirst, -⟩ := splitCommas_eq_cons 0 tokens
      rw [← hmore, hfirst]
      exact ⟨hnil 0, forall_mem_cons.mpr (ih hfirst)⟩
    · obtain ⟨hfree, hothers⟩ := ih hrest
      refine ⟨fun before after hsplit => ?_, hothers⟩
      cases before with
      | nil => exact fun hdepth => hcomma ⟨(List.cons.inj hsplit).1, hdepth⟩
      | cons text before =>
        obtain ⟨rfl, htail⟩ := List.cons.inj hsplit
        exact hfree before after htail

end ExprReader

/-- The texts that a call starts with. -/
def Callee.Heads : Callee → List Text → Prop
  | .function none name, texts => texts = [name]
  | .function (some module) name, texts => texts = [module, ":", name]
  | .remote target method, texts => texts = [target, "->", method]
  | .resource target path method, texts => ∃ steps, spelled? path = some steps ∧
      texts = target :: "->" :: (steps ++ [("." :Text), method])

/-- The texts are those of an expression of this shape. -/
def Expr.Spells : Expr → List Text → Prop
  | .check _ panics inner, texts => ∃ more, spelled? inner.source = some more ∧
      texts = (if panics then ("checkpanic" : Text) else "check") :: more
  | .call _ callee args, texts => ∃ head inner groups, callee.Heads head ∧
      texts = head ++ ("(" : Text) :: (inner ++ [(")" : Text)]) ∧ parens 0 inner ∧
      args.map (spelled? ·.source) = groups.map some ∧ Listed groups inner ∧
      ∀ group ∈ groups, CommaFree 0 group
  | .other _, _ => True

namespace Source.Runs

theorem spelled? (h : src.Runs tokens) :
    Text.spelled? (extentOf src tokens).source = some (textsOf tokens) := by
  obtain ⟨found, hfound, hproper, -⟩ := h.tokens?
  unfold Text.spelled?
  rw [hfound, Option.map_some, hproper]

theorem heads {callee : Callee} (h : src.Runs tokens) (hcallee : callee? src tokens = some callee) :
    callee.Heads (textsOf tokens) := by
  obtain ⟨-, c, before, lexemes, after, hsits, hrest, rfl⟩ := h
  have hpath := (hsits.callee hrest hcallee).2.2
  rcases callee?_eq_some hcallee with ⟨_, hhead, -, rfl⟩ | ⟨_, _, _, hhead, -, -, hsign⟩ |
    ⟨_, _, _, _, _, _, hhead, -, -, -, hdot, -, rfl⟩
  · rw [hhead]
    rfl
  · rw [hhead]
    rcases hsign with ⟨hsign, rfl⟩ | ⟨hsign, rfl⟩
    · rw [Callee.Heads, ← is_iff.mp hsign]
      rfl
    · rw [Callee.Heads, ← is_iff.mp hsign]
      rfl
  · obtain ⟨target, arrow, slash, between, dot, method, rfl, harrow, -, hkeys⟩ := hpath _ rfl
    simp only [map_cons, map_append, cons.injEq] at hhead
    obtain ⟨rfl, rfl, rfl, htail⟩ := hhead
    obtain ⟨rfl, hends⟩ := append_inj' htail rfl
    obtain ⟨⟩ := hends
    have hproper {lexeme : Lexeme} (hmem : lexeme ∈ slash :: between ++ [dot, method]) :
        lexeme.Proper :=
      hsits.proper lexeme (StatementReader.mem_of_between hrest
        (mem_cons_of_mem _ (mem_cons_of_mem _ hmem)))
    refine ⟨texts (slash :: between), ?_, ?_⟩
    · unfold Text.spelled?
      rw [hkeys, Option.map_some, proper_keys (fun lexeme hmem => hproper (mem_append_left _ hmem))
        (hproper (mem_append_right _ mem_cons_self)).2]
    · rw [← is_iff.mp harrow, ← is_iff.mp hdot]
      simp [textsOf, texts]

end Source.Runs

/-- The tokens of an expression that is read, by its shape. The parenthesis before the arguments of a
call is the partner of its last token. -/
theorem Expr.spells_tokens {e : Expr} (hread : e.IsRead src) :
    ∃ texts, Text.spelled? e.source = some texts ∧ e.Spells texts := by
  obtain ⟨bound, tokens, hruns, rfl⟩ := hread.formed
  refine ⟨textsOf tokens, ?_, ?_⟩
  · rw [source_ofTokens]
    exact hruns.spelled?
  rcases ofTokens_cases src bound tokens with heq | ⟨inside, first, rest, rfl, rfl, hne, hfirst, heq⟩ |
    ⟨inside, head, inner, callee, rfl, hparts, -, hcallee, heq⟩
  · rw [heq]
    trivial
  · rw [heq]
    refine ⟨textsOf rest, ?_, ?_⟩
    · rw [source_ofTokens]
      exact (hruns.of_infix (suffix_cons first rest).isInfix hne).spelled?
    · refine congrArg (· :: textsOf rest) ?_
      rw [Bool.or_eq_true] at hfirst
      split
      · next hpanics => exact is_iff.mp hpanics
      · next hpanics => exact is_iff.mp (hfirst.resolve_right hpanics)
  · rw [heq]
    obtain ⟨opening, closing, rfl, hopening, hclosing, hne⟩ := callParts?_eq_some hparts
    obtain ⟨group, more, hsplit, -⟩ := splitCommas_eq_cons 0 inner
    have hgroups : argumentGroups inner = (group :: more).filter fun group => !group.isEmpty := by
      rw [argumentGroups, hsplit]
    refine ⟨textsOf head, textsOf inner, (argumentGroups inner).map textsOf,
      (hruns.of_infix ⟨[], _, rfl⟩ hne).heads hcallee, ?_, parens_of_callParts? hparts, ?_, ?_, ?_⟩
    · rw [← is_iff.mp hopening, ← is_iff.mp hclosing]
      simp [textsOf]
    · rw [map_map, map_map]
      refine map_congr_left fun group hgroup => ?_
      obtain ⟨hwithin, hne⟩ := argument_within hparts hgroup
      exact (congrArg Text.spelled? (source_ofTokens inside group)).trans
        (hruns.of_infix hwithin hne).spelled?
    · rw [hgroups]
      exact listed_splitCommas [] hsplit
    · rw [hgroups]
      have hfree : ∀ other ∈ group :: more, CommaFree 0 (textsOf other) :=
        forall_mem_cons.mpr (commaFree_splitCommas hsplit)
      exact forall_mem_map.mpr fun other hmem => hfree other (mem_of_mem_filter hmem)

/-- A resource call with a nested call and a comma after its last argument. It has four parts. -/
theorem Expr.spells_tokens_nested : ∃ (src : Source) (e : Expr) (texts : List Text), e.IsRead src ∧
    e.source = ("c->/a.get(x, g(1, 2),)" : Text) ∧ e.withParts.length = 5 ∧
    Text.spelled? e.source = some texts ∧ e.Spells texts := by
  let src : Source := ⟨"m", "function f() \x7b check c->/a.get(x, g(1, 2),); \x7d"⟩
  obtain ⟨file, hread, e, hmem, hsource, hparts⟩ := Except.exists_ok (SourceFile.read src)
    (fun file => ∃ e ∈ file.expressions,
      e.source = "c->/a.get(x, g(1, 2),)".toList ∧ e.withParts.length = 5) (by decide +kernel)
  have hread : e.IsRead src := .file hread hmem
  obtain ⟨texts, htexts, hspells⟩ := Expr.spells_tokens hread
  exact ⟨src, e, texts, hread, hsource, hparts, htexts, hspells⟩

end Flowchart
