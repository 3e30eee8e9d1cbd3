import Flowchart.Proofs.CallRendering

/-!
Reading a call that was rendered. Arguments with commas between them are split at the same commas
again, as long as the brackets of each argument are closed within it. So the text of a call is read as
a call with the written arguments, and binding these gives every parameter what it had before.
-/
namespace Flowchart

open List

variable {depth : Nat} {tokens : List Token} {mark : Mark} {text word : Text} {pieces : List Given}

namespace ExprReader

open Token

def textsOf (tokens : List Token) : List Text := tokens.map Token.text

theorem textsOf_cons (token : Token) (tokens : List Token) :
    textsOf (token :: tokens) = token.text :: textsOf tokens := rfl

/-- With `depth` parentheses open before them, the texts close every parenthesis. -/
def parens : (depth : Nat) → List Text → Bool
  | depth, [] => depth == 0
  | depth, text :: rest =>
    if text = "(" then parens (depth + 1) rest
    else if text = ")" then
      match depth with
      | 0 => false
      | depth + 1 => parens depth rest
    else parens depth rest

/-- The tokens of one argument: no comma outside all brackets, and all brackets closed. -/
structure Group (tokens : List Token) : Prop where
  nonempty : tokens ≠ []
  plain : ∀ token ∈ tokens, token.isComment = false
  passes : passes "," 0 (textsOf tokens) = true
  parens : parens 0 (textsOf tokens) = true

theorem parens_append {a b : List Text} (ha : parens depth a) (hb : parens 0 b) :
    parens depth (a ++ b) := by
  induction a generalizing depth with
  | nil =>
    obtain rfl : depth = 0 := of_decide_eq_true ha
    exact hb
  | cons text a ih =>
    rw [cons_append]
    unfold parens at ha ⊢
    split at ha
    · next hopens =>
      rw [if_pos hopens]
      exact ih ha
    split at ha
    · next hopens hcloses =>
      rw [if_neg hopens, if_pos hcloses]
      cases depth with
      | zero => cases ha
      | succ depth => exact ih ha
    · next hopens hcloses =>
      rw [if_neg hopens, if_neg hcloses]
      exact ih ha

/-- Going back over tokens that close their parentheses. -/
theorem matchBack_parens (h : parens depth (textsOf tokens)) (open' : Nat)
    (inner before : List Token) :
    matchBack open' inner (tokens.reverse ++ before) =
      matchBack (open' + depth) (tokens ++ inner) before := by
  induction tokens generalizing depth before with
  | nil =>
    obtain rfl : depth = 0 := of_decide_eq_true h
    rfl
  | cons token tokens ih =>
    rw [reverse_cons, append_assoc, cons_append]
    unfold textsOf at h ih
    rw [map_cons] at h
    unfold parens at h
    split at h
    · next hopens =>
      have hclosing : token.is ")" = false := by
        unfold Token.is
        rw [hopens]
        decide
      have hopening : token.is "(" := decide_eq_true hopens
      rw [ih h, matchBack.eq_def]
      simp only [hclosing, hopening]
      rfl
    split at h
    · next hopens hcloses =>
      have hclosing : token.is ")" := decide_eq_true hcloses
      cases depth with
      | zero => cases h
      | succ depth =>
        rw [ih h, matchBack.eq_def]
        simp only [hclosing]
        rfl
    · next hopens hcloses =>
      have hclosing : token.is ")" = false := decide_eq_false hcloses
      have hopening : token.is "(" = false := decide_eq_false hopens
      rw [ih h, matchBack.eq_def]
      simp only [hclosing, hopening]
      rfl

end ExprReader

namespace Token.Cuts

open Text

/-- Texts are put together where a separator stands and no comment is left open. -/
theorem followed {a b : Text} {first second : List Token} (ha : Cuts mark a first)
    (hlast : first.getLast?.any isComment = false) (hb : Cuts (mark.after a) b second)
    (hseparates : b.head?.all separates) : Cuts mark (a ++ b) (first ++ second) :=
  ha.joined hb hseparates fun hcomment => absurd (hlast.symm.trans hcomment) Bool.false_ne_true

theorem append {a b : Text} {first second : List Token} (ha : Cuts mark a first)
    (hb : Cuts (mark.after a) b second) (hseparates : b.head?.all separates)
    (hplain : ∀ token ∈ first, token.isComment = false) : Cuts mark (a ++ b) (first ++ second) :=
  ha.followed (last_of_plain hplain) hb hseparates

theorem start_eq {token : Token} (h : Cuts mark text (token :: tokens))
    (hfirst : text.head?.all (!isBlank ·)) : token.start = mark := by
  cases h with
  | @token _ gap rest _ after c cls _ hgap hc htake hmore =>
    cases gap with
    | nil => rfl
    | cons d gap =>
      rw [cons_append, head?_cons, Option.all_some, Bool.not_eq_true'] at hfirst
      rw [all_cons, Bool.and_eq_true, hfirst] at hgap
      cases hgap.1

theorem stopOf_eq (h : Cuts mark text tokens) (hlast : text.getLast?.all (!isBlank ·)) :
    stopOf mark tokens = mark.after text := by
  rw [← append_nil tokens] at h
  obtain ⟨piece, rest, rfl, -, hstop, hrest⟩ := h.split
  cases hrest with
  | done hgap =>
    rcases eq_nil_or_concat rest with rfl | ⟨front, d, rfl⟩
    · rw [hstop, append_nil]
    · rw [concat_eq_append] at hlast hgap
      rw [← append_assoc, getLast?_concat, Option.all_some, Bool.not_eq_true'] at hlast
      rw [all_isBlank_append, all_cons, Bool.and_eq_true, hlast] at hgap
      cases hgap.2.1

end Token.Cuts

/-- The text is one argument: it has tokens and no comments, no comma stands outside all brackets,
and all brackets are closed. -/
def Text.isArgument (text : Text) : Bool :=
  (Text.tokens? text).any fun tokens => !tokens.isEmpty && tokens.all (·.1 ≠ .comment) &&
    ExprReader.passes "," 0 (tokens.map Prod.snd) && ExprReader.parens 0 (tokens.map Prod.snd)

namespace Call

open ExprReader Token Text

variable {src : Source} {piece : Given}

/-- What can be written as an argument and read again: a name that is a word, or a value that does not
look like a named one. -/
structure Legible (piece : Given) : Prop where
  trimmed : trim piece.2 = piece.2
  argument : isArgument piece.2 = true
  name : ∀ name, piece.1 = some name → isWord name = true
  unnamed : piece.1 = none → (Expr.other ⟨default, piece.2⟩).namedArgument? = none

theorem ends_of_trim (h : trim text = text) :
    text.head?.all (!isBlank ·) ∧ text.getLast?.all (!isBlank ·) := by
  refine ⟨?_, ?_⟩
  · cases text with
    | nil => rfl
    | cons c rest =>
      rw [head?_cons, Option.all_some]
      cases hc : isBlank c with
      | false => rfl
      | true =>
        have hlength := congrArg List.length h
        have hstart : trimStart (c :: rest) = trimStart rest := dropWhile_cons_of_pos hc
        have hrest := (dropWhile_sublist isBlank (l := rest)).length_le
        have hend := (dropWhile_sublist isBlank (l := (trimStart rest).reverse)).length_le
        unfold trim trimEnd at hlength
        rw [hstart, length_reverse, length_cons] at hlength
        rw [length_reverse] at hend
        unfold trimStart at hend hlength
        omega
  · cases text with
    | nil => rfl
    | cons c rest =>
      obtain ⟨d, hlast, hblank⟩ := getLast?_trim (by rw [h]; exact cons_ne_nil c rest)
      rw [h] at hlast
      rw [hlast, Option.all_some, hblank]
      rfl

theorem keyword_cuts (h : isWord word) (mark : Mark) :
    ∃ token, Cuts mark word [token] ∧ token.isWord ∧ token.text = word := by
  obtain ⟨tokens, hcuts, htokens⟩ := (Spells.word h).cuts mark
  obtain ⟨token, rest, rfl, hspelling, hrest⟩ := map_eq_cons_iff.mp htokens
  obtain rfl := map_eq_nil_iff.mp hrest
  exact ⟨token, hcuts, isWord_of_spelling hspelling⟩

theorem ne_of_isWord {symbol : Text} (h : isWord word) (hsymbol : isWord symbol = false) :
    word ≠ symbol := by
  rintro rfl
  exact Bool.false_ne_true (hsymbol.symm.trans h)

theorem neutral_of_isWord (h : isWord word) :
    ExprReader.opens word = false ∧ ExprReader.closes word = false := by
  refine ⟨eq_false_of_ne_true fun hopens => ?_, eq_false_of_ne_true fun hcloses => ?_⟩
  · simp only [ExprReader.opens, Bool.or_eq_true, decide_eq_true_eq] at hopens
    rcases hopens with (rfl | rfl) | rfl <;> exact absurd h (by decide)
  · simp only [ExprReader.closes, Bool.or_eq_true, decide_eq_true_eq] at hcloses
    rcases hcloses with (rfl | rfl) | rfl <;> exact absurd h (by decide)

/-- An argument as it is written starts and ends with a character that is not blank. -/
theorem Legible.ends (h : Legible piece) :
    (Render.pieceText piece).head?.all (!isBlank ·) ∧
      (Render.pieceText piece).getLast?.all (!isBlank ·) ∧ Render.pieceText piece ≠ [] := by
  have hends := ends_of_trim h.trimmed
  have hne : piece.2 ≠ [] := by
    intro hempty
    have hargument := h.argument
    rw [hempty] at hargument
    cases hargument
  obtain ⟨_ | name, value⟩ := piece
  · have htrim : trim value = value := h.trimmed
    unfold Render.pieceText
    dsimp only
    rw [htrim]
    exact ⟨hends.1, hends.2, hne⟩
  · have hword := h.name name rfl
    have htrim : trim value = value := h.trimmed
    have hname := (ends_of_trim (trim_word hword)).1
    obtain ⟨c, rest, rfl⟩ : ∃ c rest, name = c :: rest :=
      exists_cons_of_ne_nil (by rintro rfl; cases hword)
    obtain ⟨front, last, rfl⟩ : ∃ front last, value = front ++ [last] := by
      obtain ⟨front, last, hvalue⟩ := (eq_nil_or_concat value).resolve_left hne
      exact ⟨front, last, hvalue.trans (concat_eq_append ..)⟩
    have hlast := hends.2
    unfold Render.pieceText
    dsimp only at hlast ⊢
    rw [htrim, trim_word hword]
    refine ⟨hname, ?_, by simp⟩
    rw [← append_assoc, getLast?_concat]
    rwa [getLast?_concat] at hlast

/-- The source of an argument that stands in a file as it is written. -/
theorem Legible.source (h : Legible piece) {before after : Text}
    (hsrc : src.text = before ++ (Render.pieceText piece ++ after))
    (hcuts : Cuts (({} : Mark).after before) (Render.pieceText piece) tokens) (hne : tokens ≠ []) :
    (extentOf src tokens).source = Render.pieceText piece := by
  obtain ⟨hfirst, hlast, -⟩ := h.ends
  obtain ⟨token, more, rfl⟩ := exists_cons_of_ne_nil hne
  have hstart := hcuts.start_eq hfirst
  have hstop := hcuts.stopOf_eq hlast
  unfold stopOf at hstop
  obtain ⟨last, hlast⟩ : ∃ last, (token :: more).getLast? = some last := by
    exact ⟨_, rfl⟩
  rw [hlast, Option.map_some, Option.getD_some] at hstop
  unfold extentOf
  rw [hlast]
  change src.slice token.start last.stop = _
  rw [hstart, hstop, ← Mark.after_append]
  exact Source.slice_after hsrc

/-- The tokens of arguments with commas between them, and of each argument. -/
structure Laid (src : Source) (pieces : List Given) (tokens : List Token)
    (groups : List (List Token)) : Prop where
  plain : ∀ token ∈ tokens, token.isComment = false
  passes : ExprReader.passes ";" 0 (textsOf tokens) = true
  parens : ExprReader.parens 0 (textsOf tokens) = true
  sources : List.Forall₂ (fun piece group =>
    group ≠ [] ∧ (extentOf src group).source = Render.pieceText piece) pieces groups

theorem separates_listed (pieces : List Given) :
    (Render.listed false pieces).head?.all separates := by
  cases pieces <;> rfl

/-- The first argument and what follows it. -/
theorem Laid.cons {pieces : List Given} {group tokens : List Token} {groups : List (List Token)}
    (h : Laid src pieces tokens groups) (hgroup : Group group)
    (hsource : (extentOf src group).source = Render.pieceText piece) :
    Laid src (piece :: pieces) (group ++ tokens) (group :: groups) where
  plain := fun token hmem => (mem_append.mp hmem).elim (hgroup.plain token) (h.plain token)
  passes := by
    unfold textsOf
    rw [map_append]
    exact (passes_inside hgroup.passes fun _ => .inr rfl).trans h.passes
  parens := by
    unfold textsOf
    rw [map_append]
    exact parens_append hgroup.parens h.parens
  sources := .cons ⟨hgroup.nonempty, hsource⟩ h.sources

theorem Laid.nonempty {groups : List (List Token)} (h : Laid src pieces tokens groups) :
    ∀ group ∈ groups, group ≠ [] := by
  have hsources := h.sources
  clear h
  induction hsources with
  | nil => exact nofun
  | cons hfirst _ ih =>
    intro group hmem
    rcases mem_cons.mp hmem with rfl | hmem
    · exact hfirst.1
    · exact ih group hmem

theorem take?_colon (rest : Text) : take? ':' rest = some (TokenClass.symbol, (":" : Text), rest) :=
  rfl

theorem take?_arrow (rest : Text) :
    take? '-' ('>' :: rest) = some (TokenClass.symbol, ("->" : Text), rest) :=
  rfl

/-- Tokens that neither open nor close anything, nor split a statement. -/
structure Neutral (token : Token) : Prop where
  plain : token.isComment = false
  opens : ExprReader.opens token.text = false
  closes : ExprReader.closes token.text = false
  semicolon : token.text ≠ ";"
  equals : token.text ≠ "="

theorem Neutral.of_isWord {token : Token} (h : token.isWord)
    (htext : isWord token.text) : Neutral token where
  plain := isComment_of_isWord h
  opens := (neutral_of_isWord htext).1
  closes := (neutral_of_isWord htext).2
  semicolon := ne_of_isWord htext (by decide)
  equals := ne_of_isWord htext (by decide)

/-- The tokens of what a call of a function or a remote method invokes. -/
structure Heads (src : Source) (callee : Callee) (first : Token) (more : List Token) : Prop where
  word : first.isWord = true
  text : callee.words.head? = some first.text
  neutral : ∀ token ∈ first :: more, Neutral token
  callee : callee? src (first :: more) = some callee
  shape : more = [] ∨ ∃ sign name : Token, more = [sign, name] ∧
    (sign.text = ":" ∨ sign.text = "->") ∧ sign.isWord = false ∧ name.isWord = true

theorem signed_cuts {left right : Text} (c : Char) (rest : Text) (hleft : isWord left)
    (hright : isWord right) (hblank : isBlank c = false) (hseparates : separates c)
    (htake : ∀ after, take? c (rest ++ after) = some (TokenClass.symbol, c :: rest, after))
    (mark : Mark) :
    ∃ first second third : Token, Cuts mark (left ++ c :: rest ++ right) [first, second, third] ∧
      first.isWord ∧ first.text = left ∧ second.cls = .symbol ∧ second.text = c :: rest ∧
      third.isWord ∧ third.text = right := by
  obtain ⟨first, hfirst, hword, htext⟩ := keyword_cuts hleft mark
  obtain ⟨third, hthird, hword', htext'⟩ := keyword_cuts hright ((mark.after left).after (c :: rest))
  obtain ⟨second, hcls, hsign, hsecond⟩ : ∃ second : Token, second.cls = .symbol ∧
      second.text = c :: rest ∧
      Cuts (mark.after left) ([] ++ c :: (rest ++ right)) [second, third] :=
    ⟨_, rfl, rfl, .token rfl hblank (htake right) hthird⟩
  have hall := hfirst.append hsecond (by rw [nil_append]; exact hseparates)
    (forall_mem_singleton.mpr (isComment_of_isWord hword))
  refine ⟨first, second, third, ?_, hword, htext, hcls, hsign, hword', htext'⟩
  rw [append_assoc]
  exact hall

theorem Heads.of_signed {callee : Callee} {left right sign : Text} {first second third : Token}
    (hleft : isWord left) (hright : isWord right)
    (hwords : callee.words = [left, right]) (hword : first.isWord) (htext : first.text = left)
    (hcls : second.cls = .symbol) (hsign : second.text = sign) (hsigns : sign = ":" ∨ sign = "->")
    (hword' : third.isWord) (htext' : third.text = right)
    (hcallee : callee? src [first, second, third] = some callee) :
    Heads src callee first [second, third] where
  word := hword
  text := by rw [hwords, htext]; rfl
  neutral := by
    intro token hmem
    simp only [mem_cons, not_mem_nil, or_false] at hmem
    rcases hmem with rfl | rfl | rfl
    · exact .of_isWord hword (by rwa [htext])
    · refine ⟨decide_eq_false (by rw [hcls]; decide), ?_, ?_, ?_, ?_⟩ <;> rw [hsign] <;>
        rcases hsigns with rfl | rfl <;> decide
    · exact .of_isWord hword' (by rwa [htext'])
  callee := hcallee
  shape := .inr ⟨second, third, rfl, hsign ▸ hsigns, decide_eq_false (by rw [hcls]; decide), hword'⟩

theorem callee_cuts {callee : Callee} {kind : NodeKind}
    (hwords : ∀ word ∈ callee.words, isWord word) (hsuits : callee.suits kind)
    (src : Source) (mark : Mark) :
    ∃ first more, Cuts mark callee.text (first :: more) ∧ Heads src callee first more := by
  rcases callee with ⟨_ | qualifier, name⟩ | ⟨target, method⟩ | ⟨target, path, method⟩
  · have hname : isWord name := hwords name (by simp [Callee.words])
    obtain ⟨first, hcuts, hword, htext⟩ := keyword_cuts hname mark
    refine ⟨first, [], hcuts, hword, by rw [htext]; rfl, fun token hmem => ?_, ?_, .inl rfl⟩
    · rw [mem_singleton.mp hmem]
      exact .of_isWord hword (by rwa [htext])
    · rw [callee?, if_pos hword, htext]
  · have hleft : isWord qualifier := hwords qualifier (by simp [Callee.words])
    have hright : isWord name := hwords name (by simp [Callee.words])
    obtain ⟨first, second, third, hcuts, hword, htext, hcls, hsign, hword', htext'⟩ :=
      signed_cuts ':' [] hleft hright (by decide) (by decide) take?_colon mark
    refine ⟨first, [second, third], hcuts,
      .of_signed hleft hright rfl hword htext hcls hsign (.inl rfl) hword' htext' ?_⟩
    have his : second.is ":" := decide_eq_true hsign
    rw [callee?, hword, hword', his, htext, htext']
    rfl
  · have hleft : isWord target := hwords target (by simp [Callee.words])
    have hright : isWord method := hwords method (by simp [Callee.words])
    obtain ⟨first, second, third, hcuts, hword, htext, hcls, hsign, hword', htext'⟩ :=
      signed_cuts '-' ['>'] hleft hright (by decide) (by decide) take?_arrow mark
    refine ⟨first, [second, third], hcuts,
      .of_signed hleft hright rfl hword htext hcls hsign (.inr rfl) hword' htext' ?_⟩
    have his : second.is ":" = false := decide_eq_false (by rw [hsign]; decide)
    have his' : second.is "->" := decide_eq_true hsign
    rw [callee?, hword, hword', his, his', htext, htext']
    rfl
  · cases hsuits

end Call

end Flowchart
