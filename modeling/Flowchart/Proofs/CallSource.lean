import Flowchart.Proofs.CallText
import Flowchart.Proofs.RoundTrip

/-!
What is known of a statement with a call where it is read: the tokens of the call and of what it
invokes, and the text of a path, a type or a target. Then what the same beginning with another value is
read as.
-/
namespace Flowchart

open Lexeme Token List Text

variable {tokens : List Token} {stop mark : Mark} {text : Text} {more lexemes rest : List Lexeme}
  {first lexeme : Lexeme}

namespace ExprReader

variable {src : Source}

/-- The tokens of a call under checks: the checks, what the call invokes, and its parentheses. -/
theorem ofTokens_unchecked {bound : Nat} {extent : Extent} {callee : Callee} {args : List Expr}
    (h : (ofTokens src bound tokens).unchecked = .call extent callee args) :
    ∃ checks first more opening rest, tokens = checks ++ (first :: more ++ opening :: rest) ∧
      (∀ check ∈ checks, check.text ∈ [("check" : Text), "checkpanic"]) ∧
      (ofTokens src bound tokens).checks = checks.map (·.is "checkpanic") ∧
      callee? src (first :: more) = some callee ∧ opening.is "(" ∧
      first.text ∉ [("check" : Text), "checkpanic"] := by
  induction bound generalizing tokens with
  | zero => cases h
  | succ bound ih =>
    rcases ofTokens_cases src (bound + 1) tokens with hother |
      ⟨_, first, rest, ⟨⟩, rfl, -, hcheck, heq⟩ |
      ⟨_, head, inner, callee', ⟨⟩, hparts, hchecked, hcallee, heq⟩
    · rw [hother] at h
      cases h
    · rw [heq] at h ⊢
      obtain ⟨checks, start, others, opening, left, htokens, hchecks, hpanics, hleft⟩ := ih h
      refine ⟨first :: checks, start, others, opening, left, congrArg (first :: ·) htokens,
        forall_mem_cons.mpr ⟨?_, hchecks⟩, congrArg (_ :: ·) hpanics, hleft⟩
      rw [Bool.or_eq_true] at hcheck
      simp only [mem_cons, not_mem_nil, or_false]
      exact hcheck.imp of_decide_eq_true of_decide_eq_true
    · rw [heq] at h ⊢
      cases h
      obtain ⟨opening, closing, htokens, hopening, -, hne⟩ := callParts?_eq_some hparts
      obtain ⟨start, others, rfl⟩ := exists_cons_of_ne_nil hne
      refine ⟨[], start, others, opening, inner ++ [closing], htokens, forall_mem_nil _, rfl, hcallee,
        hopening, fun hmem => hchecked start (by rw [htokens]; rfl) ?_⟩
      rw [Bool.or_eq_true]
      simp only [mem_cons, not_mem_nil, or_false] at hmem
      exact hmem.imp (decide_eq_true ·) (decide_eq_true ·)

theorem callee?_eq_some {head : List Token} {callee : Callee} (h : callee? src head = some callee) :
    (∃ name, head = [name] ∧ name.isWord ∧ callee = .function none name.text) ∨
    (∃ first sign second, head = [first, sign, second] ∧ first.isWord ∧
      second.isWord ∧ ((sign.is ":" ∧ callee = .function (some first.text) second.text) ∨
        (sign.is "->" ∧ callee = .remote first.text second.text))) ∨
    (∃ target arrow slash between dot method,
      head = target :: arrow :: slash :: (between ++ [dot, method]) ∧ target.isWord ∧
      arrow.is "->" ∧ slash.is "/" ∧ dot.is "." ∧ method.isWord ∧
      callee = .resource target.text (src.slice slash.start dot.start) method.text) := by
  unfold callee? at h
  split at h
  · next name =>
    split at h
    · next hword =>
      cases h
      exact .inl ⟨name, rfl, hword, rfl⟩
    · cases h
  · next first sign second =>
    split at h
    · next hwords =>
      rw [Bool.and_eq_true] at hwords
      refine .inr (.inl ⟨first, sign, second, rfl, hwords.1, hwords.2, ?_⟩)
      split at h
      · next hcolon =>
        cases h
        exact .inl ⟨hcolon, rfl⟩
      split at h
      · next harrow =>
        cases h
        exact .inr ⟨harrow, rfl⟩
      · cases h
    · cases h
  · next target arrow slash more _ =>
    split at h
    · next method dot others hreverse =>
      split at h
      · next hall =>
        cases h
        simp only [Bool.and_eq_true] at hall
        obtain ⟨⟨⟨⟨htarget, harrow⟩, hslash⟩, hdot⟩, hmethod⟩ := hall
        refine .inr (.inr ⟨target, arrow, slash, others.reverse, dot, method, ?_, htarget, harrow,
          hslash, hdot, hmethod, rfl⟩)
        rw [← reverse_reverse more, hreverse]
        simp
      · cases h
    · cases h
  · cases h

theorem Forms.call {stop : Text} {taken : List Lexeme} {value : Expr}
    {extent : Extent} {callee : Callee} {args : List Expr} (h : Forms src stop taken value)
    (hcall : value.unchecked = .call extent callee args) :
    ∃ checks start others opening rest, taken = checks ++ (start :: others ++ opening :: rest) ∧
      (∀ check ∈ checks, check.token.text ∈ [("check" : Text), "checkpanic"]) ∧
      value.checks = checks.map (·.token.is "checkpanic") ∧
      callee? src ((start :: others).map Lexeme.token) = some callee ∧
      opening.token.is "(" ∧ start.token.text ∉ [("check" : Text), "checkpanic"] := by
  rw [h.value] at hcall ⊢
  obtain ⟨_, _, _, _, _, htokens, hchecks, hpanics, hcallee, hopening, hfirst⟩ :=
    ofTokens_unchecked hcall
  rw [hpanics]
  obtain ⟨checks, rest, rfl, rfl, hrest⟩ := map_eq_append_iff.mp htokens
  obtain ⟨head, inner, rfl, hhead, hinner⟩ := map_eq_append_iff.mp hrest
  obtain ⟨start, others, rfl, rfl, rfl⟩ := map_eq_cons_iff.mp hhead
  obtain ⟨opening, inner, rfl, rfl, rfl⟩ := map_eq_cons_iff.mp hinner
  refine ⟨checks, start, others, opening, inner, rfl,
    fun check hmem => hchecks check.token (mem_map_of_mem hmem), ?_, hcallee, hopening, hfirst⟩
  rw [map_map]
  rfl

end ExprReader

namespace Token

open Text

/-- A text that ends with its last token ends in no blank, unless that token is a comment. -/
theorem Cuts.ends (h : Cuts mark text tokens) (hstop : stopOf mark tokens = mark.after text)
    (hlast : tokens.getLast?.any isComment = false) :
    tokens = [] ∨ text.getLast?.any (!isBlank ·) := by
  induction h with
  | done => exact .inl rfl
  | @token mark gap rest text after c cls tokens hgap hc htake hmore ih =>
    right
    obtain ⟨body, rfl, rfl⟩ := take?_split htake
    have hsplit : mark.after (gap ++ c :: (body ++ after)) =
        ((mark.after gap).after (c :: body)).after after := by
      rw [← Mark.after_append, ← Mark.after_append]
      simp
    rw [hsplit] at hstop
    cases tokens with
    | nil =>
      obtain rfl : after = [] := by
        have hindex := congrArg Mark.index hstop
        exact length_eq_zero_iff.mp (Nat.left_eq_add.mp hindex)
      obtain ⟨last, hbody, hblank⟩ := take?_last hc htake (of_decide_eq_false hlast)
      rw [append_nil, getLast?_append, hbody]
      simp [hblank]
    | cons second tokens =>
      have hafter := (ih hstop hlast).resolve_left (cons_ne_nil _ _)
      rw [← cons_append, getLast?_append, getLast?_append]
      obtain ⟨last, hsome, hblank⟩ := (Option.any_eq_true _ _).mp hafter
      rw [hsome]
      exact hblank

end Token

namespace Source

variable {src : Source} {token : Token}

/-- The text from the first token to the last: its tokens, and it has no blanks around it unless the
last token is a comment. -/
theorem Lays.slice (h : src.Lays mark (token :: tokens))
    (hlast : (token :: tokens).getLast?.any isComment = false) :
    tokens? (src.slice token.start (stopOf mark (token :: tokens))) =
        some (keys (token :: tokens)) ∧
      trim (src.slice token.start (stopOf mark (token :: tokens))) =
        src.slice token.start (stopOf mark (token :: tokens)) := by
  obtain ⟨before, piece, after, htext, rfl, hcuts, hstop⟩ := h
  have hends := (hcuts.ends hstop hlast).resolve_left (cons_ne_nil _ _)
  obtain ⟨gap, core, rfl, -, hslice, hne, hfirst, hcore⟩ := slice_cuts htext hcuts
  rw [hstop, ← Mark.after_append, hslice]
  refine ⟨hcore.tokens?_eq, trim_eq_self hfirst ?_⟩
  rw [getLast?_append_of_ne_nil _ hne] at hends
  obtain ⟨last, hsome, hblank⟩ := (Option.any_eq_true _ _).mp hends
  rw [hsome]
  exact hblank

end Source

namespace Lexeme

theorem alike_ofTokens (hproper : ∀ lexeme ∈ first :: more, lexeme.Proper)
    (hkeys : keys tokens = keys (first.token :: flat more)) :
    Alike (first :: more) (ofTokens [] tokens) := by
  have hspelled (tokens : List Token) :
      tokens.map Token.spelling = (keys tokens).map fun key => .of key.1 key.2 := by
    unfold Token.keys
    rw [map_map]
    rfl
  have hshows := @shows_flat ⟨false, fun _ => false, fun _ _ => True⟩ (⟨[], first.token⟩ :: more)
    (fun lexeme hmem => by
      rcases mem_cons.mp hmem with rfl | hmem
      · exact ⟨(hproper first mem_cons_self).1, nofun⟩
      · exact hproper lexeme (mem_cons_of_mem _ hmem)) (fun hstrict => by cases hstrict)
  refine alike_of_spellings ?_ fun lexeme hmem => (hproper lexeme hmem).1
  rw [spellings_ofTokens, hspelled, hkeys, ← hspelled]
  exact hshows.uncommented.symm

theorem mem_flat (h : lexeme ∈ first :: more) : lexeme.token ∈ first.token :: flat more := by
  rcases mem_cons.mp h with rfl | h
  · exact mem_cons_self
  · refine mem_cons_of_mem _ ?_
    induction more with
    | nil => cases h
    | cons other more ih =>
      rcases mem_cons.mp h with rfl | hmore
      · exact mem_append_right _ mem_cons_self
      · exact mem_append_right _ (mem_cons_of_mem _
          (ih (mem_cons_of_mem _ hmore) hmore))

theorem filter_flat (hproper : ∀ lexeme ∈ lexemes, lexeme.Proper) :
    (flat lexemes).filter (!·.isComment) = lexemes.map Lexeme.token := by
  induction lexemes with
  | nil => rfl
  | cons lexeme lexemes ih =>
    obtain ⟨htoken, hcomments⟩ := hproper lexeme mem_cons_self
    rw [flat, filter_append, filter_eq_nil_iff.mpr fun token hmem => by
        rw [hcomments token hmem]
        decide, filter_cons_of_pos (by rw [htoken]; rfl),
      ih fun other hmem => hproper other (mem_cons_of_mem _ hmem)]
    rfl

/-- The texts of lexemes from the token of the first, with comments after them. -/
theorem proper_keys {comments : List Token} (hproper : ∀ lexeme ∈ first :: more, lexeme.Proper)
    (hcomments : ∀ comment ∈ comments, comment.isComment) :
    Text.proper (keys (first.token :: (flat more ++ comments))) = texts (first :: more) := by
  refine (proper_eq_texts _).trans ?_
  rw [texts_ofTokens, filter_cons_of_pos (by rw [(hproper first mem_cons_self).1]; rfl),
    filter_append, filter_flat fun lexeme hmem => hproper lexeme (mem_cons_of_mem _ hmem),
    filter_eq_nil_iff.mpr fun comment hcomment => by
      rw [hcomments comment hcomment]
      decide, append_nil, ← map_cons, map_map]
  rfl

end Lexeme

namespace TypeText

/-- The token is the equals sign, and no string or comment that is spelled like it. -/
def isEquals (lexeme : Lexeme) : Bool :=
  lexeme.token.cls = .symbol && lexeme.token.is "="

theorem isEquals_of_isWord (h : lexeme.token.isWord) : isEquals lexeme = false := by
  have hcls : lexeme.token.cls = .word := of_decide_eq_true h
  simp [isEquals, hcls]

theorem scan_first (h : scan (first :: more) = .found stop rest) :
    first.token.is "(" ∨ first.token.isWord := by
  unfold scan members name at h
  split at h
  · next hopens => exact .inl hopens
  · split at h
    · cases h
    · next hname =>
      dsimp only at hname
      split at hname
      · next hword => exact .inr hword
      · cases hname

/-- Where no angle bracket stands before an equals sign, a type ends before that sign. -/
theorem scan_before {target : List Lexeme} {equals : Lexeme}
    (h : scan (target ++ equals :: more) = .found stop rest) (hequals : isEquals equals)
    (htarget : ∀ lexeme ∈ target, lexeme.token.is "<" = false) :
    ∃ taken left, target = taken ++ left ∧ rest = left ++ equals :: more := by
  obtain ⟨taken, htaken, -, htyped⟩ := (members_eq_found h).passes {}
  clear h
  induction target generalizing taken with
  | nil =>
    cases taken with
    | nil => exact ⟨[], [], rfl, htaken.symm⟩
    | cons lexeme taken =>
      obtain ⟨rfl, -⟩ := List.cons.inj htaken
      obtain ⟨hcls, hsign⟩ := (Bool.and_eq_true _ _).mp hequals
      have hcls : equals.token.cls = .symbol := of_decide_eq_true hcls
      have htext : equals.token.text = "=" := of_decide_eq_true hsign
      simp [isTyped, isPart, Token.isWord, Token.isNumber, Token.is, hcls, htext, signs] at htyped
  | cons first target ih =>
    cases taken with
    | nil => exact ⟨[], first :: target, rfl, htaken.symm⟩
    | cons lexeme taken =>
      obtain ⟨rfl, htail⟩ := List.cons.inj htaken
      rw [isTyped, htarget first mem_cons_self, if_neg Bool.false_ne_true, Bool.and_eq_true] at htyped
      obtain ⟨between, left, rfl, hleft⟩ := ih
        (forall_mem_cons.mp htarget).2 taken htail htyped.2
      exact ⟨first :: between, left, rfl, hleft⟩

end TypeText

namespace StatementReader

open ExprReader

variable {src : Source} {c : Cursor} {before left : List Lexeme}

theorem Sits.lays_from (h : Sits src c) (hrest : c.rest = before ++ (first :: more ++ left)) :
    ∃ mark, src.Lays mark (first.token :: flat more ++ flat left) := by
  obtain ⟨trailing, hlays⟩ := h.laid
  have hflat : flat c.rest ++ trailing = (flat before ++ first.comments) ++
      ((first.token :: flat more ++ flat left) ++ trailing) := by
    rw [hrest, flat_append, cons_append, flat, flat_append]
    simp
  rw [hflat] at hlays
  exact ⟨_, (hlays.append.2).append.1⟩

theorem mem_of_between {lexeme : Lexeme} {part : List Lexeme}
    (hrest : c.rest = before ++ (part ++ left)) (hmem : lexeme ∈ part) : lexeme ∈ c.rest := by
  rw [hrest]
  exact mem_append_right _ (mem_append_left _ hmem)

/-- The tokens of a text that is taken from a first lexeme to a last one. -/
theorem Sits.slice (h : Sits src c) (hrest : c.rest = before ++ (first :: more ++ left)) :
    tokens? (src.slice first.token.start (stopOf {} (flat (first :: more)))) =
        some (keys (first.token :: flat more)) ∧
      trim (src.slice first.token.start (stopOf {} (flat (first :: more)))) =
        src.slice first.token.start (stopOf {} (flat (first :: more))) := by
  obtain ⟨mark, hlays⟩ := h.lays_from hrest
  have hproper : ∀ lexeme ∈ first :: more, lexeme.Proper := fun lexeme hmem =>
    h.proper lexeme (mem_of_between hrest hmem)
  have hslice := hlays.append.1.slice (last_flat hproper)
  rw [stopOf_cons] at hslice
  rw [flat, stopOf_append, stopOf_cons]
  exact hslice

/-- What is known of a call's head where it is read: its names are words, the first of them is its
first token, and its path is the text between the arrow and the last dot. -/
theorem Sits.callee {head : List Lexeme} {callee : Callee} (h : Sits src c)
    (hrest : c.rest = before ++ (head ++ left))
    (hcallee : callee? src (head.map Lexeme.token) = some callee) :
    (∀ name ∈ callee.names, isWord name) ∧
      callee.names.head? = head.head?.map (·.token.text) ∧
      ∀ path ∈ callee.path?, ∃ target arrow slash between dot method,
        head = target :: arrow :: slash :: (between ++ [dot, method]) ∧
        arrow.token.is "->" ∧ slash.token.is "/" ∧
        tokens? path = some (keys (slash.token :: (flat between ++ dot.comments))) := by
  have hword {lexeme : Lexeme} (hmem : lexeme ∈ head) (hword : lexeme.token.isWord) :
      isWord lexeme.token.text :=
    isWord_text (h.taken lexeme (mem_of_between hrest hmem)) hword
  rcases callee?_eq_some hcallee with ⟨_, hhead, hname, rfl⟩ |
    ⟨_, _, _, hhead, hfirst, hsecond, hsign⟩ |
    ⟨_, _, _, _, _, _, hhead, htarget, harrow, hslash, -, hmethod, rfl⟩
  · obtain ⟨name, rfl, rfl⟩ := map_eq_singleton_iff.mp hhead
    exact ⟨forall_mem_singleton.mpr (hword mem_cons_self hname), rfl,
      fun _ hpath => absurd hpath (Option.not_mem_none _)⟩
  · obtain ⟨first, more, rfl, rfl, hmore⟩ := map_eq_cons_iff.mp hhead
    obtain ⟨sign, rest, rfl, rfl, hsecond'⟩ := map_eq_cons_iff.mp hmore
    obtain ⟨second, rfl, rfl⟩ := map_eq_singleton_iff.mp hsecond'
    have hwords : ∀ name ∈ [first.token.text, second.token.text], isWord name :=
      forall_mem_cons.mpr ⟨hword mem_cons_self hfirst,
        forall_mem_singleton.mpr (hword (by simp) hsecond)⟩
    rcases hsign with ⟨-, rfl⟩ | ⟨-, rfl⟩ <;>
      exact ⟨hwords, rfl, fun _ hpath => absurd hpath (Option.not_mem_none _)⟩
  · obtain ⟨target, more, rfl, rfl, hmore⟩ := map_eq_cons_iff.mp hhead
    obtain ⟨arrow, path, rfl, rfl, hpath⟩ := map_eq_cons_iff.mp hmore
    obtain ⟨slash, rest, rfl, rfl, hbetween⟩ := map_eq_cons_iff.mp hpath
    obtain ⟨between, ends, rfl, rfl, hends⟩ := map_eq_append_iff.mp hbetween
    obtain ⟨dot, last, rfl, rfl, hlast⟩ := map_eq_cons_iff.mp hends
    obtain ⟨method, rfl, rfl⟩ := map_eq_singleton_iff.mp hlast
    have hfrom : c.rest = (before ++ [target, arrow]) ++
        (slash :: between ++ dot :: method :: left) := by
      rw [hrest]
      simp
    obtain ⟨mark, hlays⟩ := h.lays_from hfrom
    rw [flat, ← append_assoc] at hlays
    refine ⟨forall_mem_cons.mpr ⟨hword mem_cons_self htarget,
      forall_mem_singleton.mpr (hword (by simp) hmethod)⟩, rfl, ?_⟩
    rintro _ ⟨⟩
    exact ⟨target, arrow, slash, between, dot, method, rfl, harrow, hslash,
      hlays.cuts_upto.choose_spec.tokens?_eq⟩

/-- No equals sign stands outside the brackets of a text that starts no assignment. -/
theorem passes_of_targetStop? {depth : Nat} (hpasses : passes ";" depth (texts lexemes))
    (h : targetStop? depth (some mark) (lexemes ++ rest) = none) :
    passes "=" depth (texts lexemes) := by
  induction lexemes generalizing depth mark with
  | nil => exact hpasses
  | cons lexeme lexemes ih =>
    rw [cons_append, targetStop?_cons] at h
    rcases (passes_texts hpasses).2 with ⟨hopens, hmore⟩ |
      ⟨hopens, hcloses, inner, rfl, hmore⟩ | ⟨hopens, hcloses, hsemicolon, hmore⟩
    · rw [if_pos hopens] at h
      have hequals : ¬ (depth = 0 ∧ lexeme.token.text = "=") := by
        rintro ⟨-, htext⟩
        simp only [Token.opens, Token.is, htext] at hopens
        cases hopens
      exact (passes_opening _ hequals hopens).trans (ih hmore h)
    · rw [if_neg hopens, if_pos hcloses] at h
      exact (passes_closing _ (eq_false_of_ne_true hopens) hcloses).trans (ih hmore h)
    · rw [if_neg hopens, if_neg hcloses, if_neg fun hboth => hsemicolon hboth.2] at h
      split at h
      · cases h
      · next hequals =>
        exact (passes_plain _ (fun hboth => hequals ⟨hboth.1, is_iff.mpr hboth.2⟩)
          (eq_false_of_ne_true hopens) (eq_false_of_ne_true hcloses)
          (mt is_iff.mpr hsemicolon)).trans (ih hmore h)

theorem not_leading_of_startsSimple {token : Token} {second : Option Token}
    (h : startsSimple token second) (hsecond : second.any (·.is "=") = false) :
    token.text ∉ Statement.leading := by
  unfold startsSimple at h
  rw [hsecond] at h
  simp only [Token.is, Bool.not_false, Bool.and_true, Bool.and_eq_true, Bool.not_eq_true',
    Bool.or_eq_false_iff, decide_eq_false_iff_not, and_assoc] at h
  simp only [Statement.leading, mem_cons, not_mem_nil, or_false, not_or]
  exact h

theorem passes_words {stop : Text} {words : List Text} (hstop : isWord stop = false)
    (h : ∀ word ∈ words, isWord word) : passes stop 0 words := by
  induction words with
  | nil => rfl
  | cons word words ih =>
    have hword := h word mem_cons_self
    obtain ⟨hopens, hcloses⟩ := Call.neutral_of_isWord hword
    rw [passes_plain words (fun hboth => Call.ne_of_isWord hword hstop hboth.2) hopens hcloses
      (Call.ne_of_isWord hword (by decide))]
    exact ih (forall_mem_cons.mp h).2

/-- A call that stands alone and has no check starts with no word that starts another statement, and
its path with no assignment. -/
theorem Sits.alone {first semicolon : Lexeme} {taken rest : List Lexeme} {value : Expr}
    {extent : Extent} {callee : Callee} {args : List Expr} (h : Sits src c)
    (hrest : c.rest = first :: taken ++ semicolon :: rest)
    (hvalue : Forms src ";" (first :: taken) value)
    (hcall : value.unchecked = .call extent callee args)
    (hstarts : startsSimple first.token ((taken ++ [semicolon]).head?.map Lexeme.token))
    (hfinal : first.token.is "final" = false)
    (hstop : targetStop? 0 none (first :: taken ++ semicolon :: rest) = none) :
    (value.checks = [] → ∀ name ∈ callee.names.head?, name ∉ Statement.leading ∧ name ≠ "final") ∧
      ∀ path ∈ callee.path?, isClosed path → ∀ found ∈ tokens? path,
        passes "=" 0 (Text.proper found) := by
  obtain ⟨checks, start, others, opening, inner, htaken, hchecks, hpanics, hcallee, -, -⟩ :=
    hvalue.call hcall
  have hrest' : c.rest = checks ++ (start :: others ++ (opening :: inner ++ semicolon :: rest)) := by
    rw [hrest, htaken]
    simp
  obtain ⟨hnames, hfirst, hpath⟩ := h.callee hrest' hcallee
  have hword : isWord start.token.text := hnames _ (mem_of_mem_head? hfirst)
  refine ⟨fun hnone name hname => ?_, fun path hmem hclosed found hfound => ?_⟩
  · obtain rfl : checks = [] := map_eq_nil_iff.mp (hpanics.symm.trans hnone)
    rw [cons_append] at htaken
    obtain ⟨rfl, rfl⟩ := List.cons.inj htaken
    obtain rfl : first.token.text = name := Option.some.inj (hfirst.symm.trans hname)
    refine ⟨not_leading_of_startsSimple hstarts ?_, of_decide_eq_false hfinal⟩
    obtain ⟨second, more, hmore⟩ := exists_cons_of_ne_nil
      (show others ++ opening :: inner ≠ [] by simp)
    rw [hmore]
    refine Bool.eq_false_iff.mpr fun hequals => ?_
    have hsecond : second.token.text = "=" := of_decide_eq_true hequals
    have hfront : passes "=" 0 (texts [first]) :=
      passes_words (by decide) fun word hmem => mem_singleton.mp hmem ▸ hword
    rw [hmore, cons_append, ← singleton_append, targetStop?_skips hfront,
      cons_append, targetStop?_cons] at hstop
    unfold Token.opens Token.closes Token.is at hstop
    rw [hsecond] at hstop
    cases hstop
  · obtain ⟨target, arrow, slash, between, dot, method, hhead, harrow, -, hkeys⟩ := hpath path hmem
    obtain rfl : keys (slash.token :: (flat between ++ dot.comments)) = found :=
      Option.some.inj (hkeys.symm.trans hfound)
    have hfrom : c.rest = (checks ++ [target, arrow]) ++ (slash :: (between ++ [dot]) ++
        (method :: opening :: inner ++ semicolon :: rest)) := by
      rw [hrest', hhead]
      simp
    have hproper : ∀ lexeme ∈ slash :: (between ++ [dot]), lexeme.Proper := fun lexeme hmem =>
      h.proper lexeme (mem_of_between hfrom hmem)
    have htexts : Text.proper (keys (slash.token :: (flat between ++ dot.comments))) =
        texts (slash :: between) := by
      rw [← cons_append] at hproper
      exact proper_keys (fun lexeme hmem => hproper lexeme (mem_append_left _ hmem))
        (hproper dot (mem_append_right _ mem_cons_self)).2
    rw [htexts]
    have hpasses : passes ";" 0 (texts (slash :: between)) := by
      rw [← htexts]
      unfold isClosed at hclosed
      rw [hkeys, Option.any_some, Bool.and_eq_true, Bool.and_eq_true] at hclosed
      exact hclosed.1.2
    have hfront : passes "=" 0 (texts (checks ++ [target, arrow])) := by
      have hwords : ∀ word ∈ texts (checks ++ [target]), isWord word := by
        intro word hmem
        rw [texts, map_append] at hmem
        rcases mem_append.mp hmem with hmem | hmem
        · obtain ⟨check, hcheck, rfl⟩ := mem_map.mp hmem
          have hchecks' : ∀ text ∈ [("check" : Text), "checkpanic"], isWord text := by
            decide
          exact hchecks' _ (hchecks check hcheck)
        · rw [mem_singleton.mp hmem, ← (List.cons.inj hhead).1]
          exact hword
      have harrow' : passes "=" 0 (texts [arrow]) := by
        rw [texts, map_singleton, of_decide_eq_true harrow]
        decide
      have hsplit : texts (checks ++ [target, arrow]) =
          texts (checks ++ [target]) ++ texts [arrow] := by
        simp [texts]
      rw [hsplit]
      exact passes_append (passes_words (by decide) hwords) harrow'
    have hlist : first :: taken ++ semicolon :: rest = (checks ++ [target, arrow]) ++
        ((slash :: between) ++ (dot :: method :: opening :: inner ++ semicolon :: rest)) := by
      rw [htaken, hhead]
      simp
    rw [hlist, targetStop?_skips hfront, lastStop, foldl_append] at hstop
    exact passes_of_targetStop? hpasses hstop

/-- A target with no angle bracket begins no declaration if another one like it, before an equals
sign too, begins none. -/
theorem declares_target {target target' more' : List Lexeme} {equals equals' : Lexeme}
    (h : declares (target ++ equals :: more) = false) (hequals : equals.token.is "=")
    (halike : Alike target target') (hequals' : TypeText.isEquals equals')
    (htaken : ∀ lexeme ∈ target', lexeme.token.Taken)
    (htarget : ∀ sign ∈ [("=" : Text), ";", "<"], ∀ lexeme ∈ target', lexeme.token.is sign = false) :
    declares (target' ++ equals' :: more') = false := by
  refine Bool.eq_false_iff.mpr fun hdeclares => ?_
  unfold declares at hdeclares
  split at hdeclares
  · next stop name follow rest hscan =>
    rw [Bool.and_eq_true] at hdeclares
    obtain ⟨hname, hfollow⟩ := hdeclares
    obtain ⟨taken, left, rfl, hleft⟩ := TypeText.scan_before hscan hequals' (htarget "<" (by decide))
    rw [hleft, append_assoc] at hscan
    cases left with
    | nil =>
      obtain ⟨rfl, -⟩ := List.cons.inj hleft
      rw [TypeText.isEquals_of_isWord hname] at hequals'
      cases hequals'
    | cons word left =>
      obtain ⟨rfl, hrest⟩ := List.cons.inj hleft
      cases left with
      | nil =>
        obtain ⟨taken', last, rfl, hfront, hlast⟩ := halike.symm.split
        cases hlast with
        | @cons _ word _ _ hsame hnone =>
          cases hnone
          have hcolon := isColon_of_isWord (htaken name (by simp)) hname
          obtain ⟨stop', hscan'⟩ := TypeText.scan_alike hsame (equals :: more) hcolon hfront
            hscan
          rw [append_assoc, singleton_append] at h
          rw [declares_of_scan hscan' (hsame.isWord ▸ hname)
            (by rw [hequals, Bool.true_or])] at h
          cases h
      | cons second left =>
        obtain ⟨rfl, -⟩ := List.cons.inj hrest
        have hin : follow ∈ taken ++ name :: follow :: left := by simp
        rw [htarget "=" (by decide) follow hin, htarget ";" (by decide) follow hin] at hfollow
        cases hfollow
  · cases hdeclares

section Rewriting

variable {src' : Source} {start : Lexeme} {others : List Lexeme} {equals sign : Lexeme}
  {taken : List Lexeme} {semicolon : Lexeme} {rest' : List Lexeme} {value : Expr}

theorem startsSimple_before {second second' : Lexeme}
    (halike : Alike (first :: more) (start :: others)) (hsame : second.token.Same second'.token)
    (h : startsSimple first.token ((more ++ [second]).head?.map Lexeme.token)) :
    startsSimple start.token ((others ++ second' :: taken).head?.map Lexeme.token) := by
  cases halike with
  | cons hfirst hothers =>
    have hlike := startsSimple_alike hfirst (hothers.append (.cons hsame .nil))
    rw [h] at hlike
    rw [hlike]
    cases others <;> rfl

/-- An assignment of another value to the same target. -/
theorem Plain.assigned
    (hstarts : startsSimple first.token ((more ++ [equals]).head?.map Lexeme.token))
    (hfinal : first.token.is "final" = false)
    (hdeclares : declares (first :: more ++ equals :: rest) = false)
    (hequals : equals.token.is "=") (hopen : openAfter 0 (first :: more) = some 0)
    (halike : Alike (first :: more) (start :: others)) (hsame : equals.token.Same sign.token)
    (hsign : TypeText.isEquals sign)
    (htaken : ∀ lexeme ∈ start :: others, lexeme.token.Taken)
    (hsigns : ∀ text ∈ [("=" : Text), ";", "<"], ∀ lexeme ∈ start :: others,
      lexeme.token.is text = false)
    (hvalue : Forms src' ";" taken value) (hsemicolon : semicolon.token.is ";") :
    Plain src' rest' (start :: (others ++ sign :: (taken ++ [semicolon])))
      (.assign · (trim (src'.slice start.token.start (stopOf {} (flat (start :: others)))))
        value) := by
  have hsign' : sign.token.is "=" := (hsame.is (by decide)).symm.trans hequals
  refine .simple (startsSimple_before halike hsame hstarts) (.assignment ?_
    (declares_target hdeclares hequals halike hsign htaken hsigns) (hsigns "=" (by decide)) hsign'
    hvalue hsemicolon (targetStop?_of_openAfter (hsigns "=" (by decide)) hsign'
      ((openAfter_alike halike).symm.trans hopen)))
  cases halike with
  | cons hfirst _ => exact (hfirst.is (by decide)).symm.trans hfinal

/-- A declaration of the same variable with another value. -/
theorem Plain.declared {name name' : Lexeme} {typeName : Text}
    (hstarts : startsSimple first.token ((more ++ [name]).head?.map Lexeme.token))
    (hfinal : first.token.is "final" = false)
    (htyped : TypeText.Names src (first :: more) (name :: rest) typeName)
    (hname : name.token.isWord) (hcolon : name.token.is ":" = false)
    (halike : Alike (first :: more) (start :: others)) (hsame : name.token.Same name'.token)
    (hsign : sign.token.is "=")
    (hvalue : Forms src' ";" taken value) (hsemicolon : semicolon.token.is ";") :
    Plain src' rest' (start :: (others ++ name' :: sign :: (taken ++ [semicolon])))
      (.varDecl · false (src'.slice start.token.start (stopOf {} (flat (start :: others))))
        name'.token.text (some value)) := by
  obtain ⟨typeName', htyped', -⟩ := htyped.alike src' halike hsame hcolon
    (sign :: (taken ++ [semicolon]) ++ rest')
  obtain ⟨_, _, hlexemes, htext⟩ := htyped'.text
  obtain ⟨rfl, rfl⟩ := List.cons.inj hlexemes
  subst htext
  refine .simple (startsSimple_before halike hsame hstarts) (@Simple.declaration src' rest' []
    (start :: others) _ false name' _ _ (.inr ⟨rfl, rfl, ?_⟩) htyped' (hsame.isWord ▸ hname)
    (.some hsign hvalue hsemicolon))
  rw [← halike.head?_is (by decide)]
  exact hfinal

end Rewriting

end StatementReader

end Flowchart
