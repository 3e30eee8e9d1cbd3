import Flowchart.Proofs.Forming

/-!
The parentheses around a whole expression. They are looked for by counting characters, also those in
strings and comments. Where no string and no comment of the expression holds a parenthesis, the
characters are the tokens, and one pair is taken off just if the first token opens it and the last one
closes it.
-/
namespace Flowchart

open List Token ExprReader

variable {text rest after : Text} {cls : TokenClass} {found : List (TokenClass × Text)}
  {mark : Mark} {tokens : List Token} {c d : Char} {depth : Nat}

namespace Text

/-- One pair of parentheses encloses all of the texts. -/
def Wrapped (texts : List Text) : Prop :=
  ∃ inner, texts = ("(" : Text) :: (inner ++ [(")" : Text)]) ∧ parens 0 inner

/-- No string or comment among the tokens holds a parenthesis. -/
def HidesNone (found : List (TokenClass × Text)) : Prop :=
  ∀ key ∈ found, key.1 = .quoted ∨ key.1 = .comment → ∀ c ∈ key.2, c ∉ ['(', ')']

theorem proper_cons (cls : TokenClass) (text : Text) (found : List (TokenClass × Text)) :
    proper ((cls, text) :: found) = if cls = .comment then proper found else text :: proper found := by
  unfold proper
  by_cases hcls : cls = .comment <;> simp [hcls]

/-- A parenthesis in a token is the token, unless that is a string or a comment. -/
theorem take?_paren (h : take? c rest = some (cls, text, after))
    (hides : cls = .quoted ∨ cls = .comment → ∀ c ∈ text, c ∉ ['(', ')']) (hd : d ∈ ['(', ')'])
    (hmem : d ∈ text) : text = [d] ∧ cls = .symbol := by
  have hlone : isLone d :=
    List.forall_iff_forall_mem.mp (by decide : ['(', ')'].Forall (isLone ·)) d hd
  obtain ⟨body, rfl, -⟩ := take?_split h
  rcases mem_cons.mp hmem with rfl | hbody
  · rw [(take?_lone hlone rest).2.2] at h
    cases h
    exact ⟨rfl, rfl⟩
  · rcases take?_cases h with ⟨hcls, -⟩ | ⟨_, hcls, -⟩ | ⟨-, -, hplain⟩
    · exact absurd hd (hides (.inr hcls) d hmem)
    · exact absurd hd (hides (.inl hcls) d hmem)
    · have hseparates := (take?_lone hlone []).2.1
      rw [hplain d hbody] at hseparates
      cases hseparates

theorem wrapsWhole_append {a : Text} (h : ∀ c ∈ a, c ∉ ['(', ')']) (rest : Text) :
    Expr.wrapsWhole depth (a ++ rest) = Expr.wrapsWhole depth rest := by
  induction a with
  | nil => rfl
  | cons c a ih =>
    obtain ⟨hc, ha⟩ := forall_mem_cons.mp h
    rw [mem_cons, not_or, mem_singleton] at hc
    rw [cons_append, Expr.wrapsWhole, if_neg hc.1, if_neg hc.2]
    exact ih ha

theorem not_paren_of_isBlank {gap : Text} (hgap : gap.all isBlank) : ∀ c ∈ gap, c ∉ ['(', ')'] := by
  intro c hc hmem
  have hlone : isLone c :=
    List.forall_iff_forall_mem.mp (by decide : ['(', ')'].Forall (isLone ·)) c hmem
  have hblank := all_eq_true.mp hgap c hc
  rw [(take?_lone hlone []).1] at hblank
  cases hblank

/-- Inside of a pair of parentheses, the characters of a text are counted as its tokens are. -/
theorem wrapsWhole_cuts (h : Cuts mark text tokens) (hides : HidesNone (keys tokens))
    (hparens : parens (depth + 1) (proper (keys tokens) ++ [(")" : Text)])) :
    Expr.wrapsWhole (depth + 1) (text ++ [')']) = parens depth (proper (keys tokens)) := by
  induction h generalizing depth with
  | @done _ gap hgap =>
    obtain rfl : depth = 0 := of_decide_eq_true hparens
    rw [wrapsWhole_append (not_paren_of_isBlank hgap)]
    rfl
  | @token mark gap rest text after c cls tokens hgap hc htake hmore ih =>
    obtain ⟨hfirst, hothers⟩ := forall_mem_cons.mp hides
    obtain ⟨body, htext, rfl⟩ := take?_split htake
    rw [append_assoc, wrapsWhole_append (not_paren_of_isBlank hgap), ← cons_append, ← htext,
      append_assoc]
    change parens (depth + 1) (proper ((cls, text) :: keys tokens) ++ [(")" : Text)]) at hparens
    change _ = parens depth (proper ((cls, text) :: keys tokens))
    rw [proper_cons] at hparens ⊢
    by_cases hparen : ∃ d ∈ text, d ∈ ['(', ')']
    · obtain ⟨d, hmem, hd⟩ := hparen
      obtain ⟨rfl, rfl⟩ := take?_paren htake hfirst hd hmem
      simp only [mem_cons, not_mem_nil, or_false] at hd
      rcases hd with rfl | rfl
      · exact ih hothers hparens
      · rw [singleton_append, Expr.wrapsWhole,
          isEmpty_eq_false_iff.mpr (append_ne_nil_of_right_ne_nil _ (cons_ne_nil _ _))]
        cases depth with
        | zero => rfl
        | succ depth => exact ih hothers hparens
    · have hnone : ∀ d ∈ text, d ∉ ['(', ')'] := fun d hmem hd => hparen ⟨d, hmem, hd⟩
      rw [wrapsWhole_append hnone]
      split at hparens
      · next hcls =>
        rw [if_pos hcls]
        exact ih hothers hparens
      · next hcls =>
        have hopening : text ≠ "(" := by
          rintro rfl
          exact hnone '(' (by decide) (by decide)
        have hclosing : text ≠ ")" := by
          rintro rfl
          exact hnone ')' (by decide) (by decide)
        rw [if_neg hcls, parens.eq_def]
        rw [cons_append, parens.eq_def] at hparens
        dsimp only at hparens ⊢
        rw [if_neg hopening, if_neg hclosing] at hparens ⊢
        exact ih hothers hparens

/-- A text that ends in no blank and no comment ends in its last token. -/
theorem last_of_cuts (h : Cuts mark text tokens) (hne : tokens ≠ [])
    (hblank : text.getLast?.all (!isBlank ·)) (hlast : ∀ key ∈ (keys tokens).getLast?, key.1 ≠ .comment) :
    ∃ front others last, text = front ++ last.text ∧ tokens = others ++ [last] ∧
      Cuts mark front others ∧ last.text ≠ [] ∧
      proper (keys tokens) = proper (keys others) ++ [last.text] := by
  rcases eq_nil_or_concat tokens with rfl | ⟨others, last, rfl⟩
  · exact absurd rfl hne
  rw [concat_eq_append] at h hlast ⊢
  obtain ⟨front, htext, hfront, -⟩ := h.last_eq hblank
  have hkeys : keys (others ++ [last]) = keys others ++ [(last.cls, last.text)] := map_append
  rw [hkeys, getLast?_concat] at hlast
  obtain ⟨c, rest, after, -, htake⟩ := h.taken last (by simp)
  obtain ⟨body, hbody, -⟩ := take?_split htake
  refine ⟨front, others, last, htext, rfl, hfront, by simp [hbody], ?_⟩
  have hcls : last.cls ≠ .comment := hlast _ rfl
  rw [hkeys]
  simp [proper, hcls]

/-- What is left of a text when the parentheses around all of its tokens are taken off. -/
theorem stripParens_cuts (h : Cuts mark text tokens) (htrim : trim text = text) (hne : tokens ≠ [])
    (hfirst : ∀ key ∈ (keys tokens).head?, key.1 ≠ .comment)
    (hlast : ∀ key ∈ (keys tokens).getLast?, key.1 ≠ .comment) (hides : HidesNone (keys tokens))
    (hparens : parens 0 (proper (keys tokens))) :
    (Wrapped (proper (keys tokens)) →
      ∃ inside, text = '(' :: (inside ++ [')']) ∧ Expr.stripParens text = trim inside) ∧
    (¬ Wrapped (proper (keys tokens)) → Expr.stripParens text = text) := by
  obtain ⟨hstart, hstop⟩ := Call.ends_of_trim htrim
  cases text with
  | nil => exact absurd (h.eq_nil rfl) hne
  | cons c rest =>
  obtain ⟨cls, text, after, more, htake, hmore, rfl⟩ := h.first (by simpa using hstart)
  obtain ⟨body, rfl, rfl⟩ := take?_split htake
  have hproper : proper (keys (⟨cls, c :: body, mark, mark.after (c :: body)⟩ :: more)) =
      (c :: body) :: proper (keys more) :=
    (proper_cons cls (c :: body) (keys more)).trans (if_neg (hfirst _ rfl))
  rw [hproper] at hparens ⊢
  by_cases hopening : c = '('
  · subst hopening
    cases htake
    cases more with
    | nil => cases hparens
    | cons next more =>
    have hstop' : after.getLast?.all (!isBlank ·) := by
      cases after with
      | nil => rfl
      | cons d after => rwa [nil_append, getLast?_cons_cons] at hstop
    obtain ⟨mid, inner, last, rfl, hsplit, hmid, hnonempty, hproper'⟩ :=
      last_of_cuts hmore (cons_ne_nil _ _) hstop' hlast
    rw [hproper'] at hparens ⊢
    rw [nil_append]
    by_cases hclosing : last.text = ")"
    · rw [hclosing] at hparens ⊢
      have hinner : HidesNone (keys inner) := fun key hkey => hides key (mem_cons_of_mem _ (by
        rw [hsplit]
        exact mem_map.mpr ((mem_map.mp hkey).imp fun _ h => ⟨mem_append_left _ h.1, h.2⟩)))
      have hwraps : Expr.wrapsWhole 0 ('(' :: (mid ++ [')'])) = parens 0 (proper (keys inner)) :=
        wrapsWhole_cuts hmid hinner hparens
      constructor
      · rintro ⟨inner', heq, hinner'⟩
        obtain rfl := append_cancel_right (List.cons.inj heq).2
        refine ⟨mid, rfl, (if_pos ⟨rfl, ?_, hwraps.trans hinner'⟩).trans ?_⟩
        · exact congrArg trim dropLast_concat
        · exact getLast?_concat (l := '(' :: mid)
      · exact fun hnot => if_neg fun hall => hnot ⟨_, rfl, hwraps.symm.trans hall.2.2⟩
    · constructor
      · rintro ⟨inner', heq, -⟩
        exact absurd (List.cons.inj (append_inj' (List.cons.inj heq).2 rfl).2).1 hclosing
      · refine fun _ => if_neg fun hall => hclosing ?_
        have hend : ')' ∈ last.text := by
          have hlast' := hall.2.1
          rw [← cons_append, getLast?_append_of_ne_nil _ hnonempty] at hlast'
          exact mem_of_getLast? hlast'
        have hmem : last ∈ next :: more := by
          rw [hsplit]
          exact mem_append_right _ mem_cons_self
        obtain ⟨d, rest, after, -, htake⟩ := hmore.taken last hmem
        exact (take?_paren htake (hides _ (mem_cons_of_mem _ (mem_map_of_mem hmem))) (by decide)
          hend).1
  · have hnot : ¬ Wrapped ((c :: body) :: proper (keys more)) := by
      rintro ⟨inner, heq, -⟩
      exact hopening (List.cons.inj (List.cons.inj heq).1).1
    refine ⟨fun hwrapped => absurd hwrapped hnot, fun _ => if_neg ?_⟩
    rintro ⟨hhead, -⟩
    exact hopening (Option.some.inj hhead)

end Text

/-- The pair of parentheses around an expression that is read. Where neither a string nor a comment in it
holds a parenthesis and all of its parentheses are closed, one pair is taken off, with the blanks inside
of it, if the first token opens it and the last one closes it. Otherwise the source stays as it is. -/
theorem Expr.unparenthesized_tokens {src : Source} {e : Expr} (hread : e.IsRead src) :
    ∃ found, Text.tokens? e.source = some found ∧
      (Text.HidesNone found → parens 0 (Text.proper found) →
        (Text.Wrapped (Text.proper found) → ∃ inside, e.source = '(' :: (inside ++ [')']) ∧
          e.unparenthesized = Text.trim inside) ∧
        (¬ Text.Wrapped (Text.proper found) → e.unparenthesized = Text.trim e.source)) := by
  obtain ⟨bound, tokens, hruns, rfl⟩ := hread.formed
  obtain ⟨found, hfound, hproper, hfirst, hlast, htrim⟩ := hruns.tokens?
  rw [unparenthesized, source_ofTokens, htrim]
  refine ⟨found, hfound, fun hides hparens => ?_⟩
  obtain ⟨scanned, hcuts, rfl⟩ := Text.cuts_of_tokens? hfound {}
  refine Text.stripParens_cuts hcuts htrim ?_ hfirst hlast hides hparens
  rintro rfl
  exact hruns.1 (map_eq_nil_iff.mp hproper.symm)

/-- A sum in parentheses, with blanks inside of them. -/
theorem Expr.unparenthesized_tokens_sum : ∃ (src : Source) (e : Expr), e.IsRead src ∧
    e.source = ("( (a) + (b) )" : Text) ∧ e.unparenthesized = ("(a) + (b)" : Text) := by
  let src : Source := ⟨"m", "function f() \x7b if ( (a) + (b) ) \x7b\x7d \x7d"⟩
  obtain ⟨file, hread, e, hmem, hsource⟩ := Except.exists_ok (SourceFile.read src)
    (fun file => ∃ e ∈ file.expressions, e.source = "( (a) + (b) )".toList) (by decide +kernel)
  obtain ⟨found, hfound, hstrip⟩ := Expr.unparenthesized_tokens (.file hread hmem)
  obtain rfl : found = (Text.tokens? "( (a) + (b) )").getD [] := by
    rw [← hsource, hfound]
    rfl
  obtain ⟨inside, hinside, hresult⟩ := (hstrip (by unfold Text.HidesNone; decide +kernel)
    (by decide +kernel)).1 ⟨["(", "a", ")", "+", "(", "b", ")"], by decide +kernel, by decide⟩
  have hinside : inside ++ [')'] = " (a) + (b) ".toList ++ [')'] :=
    (List.cons.inj (hinside.symm.trans hsource)).2
  rw [append_cancel_right hinside] at hresult
  exact ⟨src, e, .file hread hmem, hsource, hresult.trans (by decide +kernel)⟩

/-- A parenthesis in a string counts: a pair may stay for it, or two pairs be taken for one. -/
theorem Expr.unparenthesized_quoted :
    (SourceFile.read ⟨"m", "function f() \x7b a((b + \")\"), (\"(\") + (\")\")); \x7d"⟩).toOption.map
      (fun file => (file.expressions.map Expr.unparenthesized).tail) =
        some ["(b + \")\")".toList, "\"(\") + (\")\"".toList] := by
  decide +kernel

end Flowchart
