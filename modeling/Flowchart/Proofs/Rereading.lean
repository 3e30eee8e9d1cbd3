import Flowchart.Proofs.Completeness
import Flowchart.Proofs.Likeness

/-!
Plain statements at two places. Where the lexemes of a plain statement are found again, spelled alike
and with anything after them, they are a plain statement of the same form there, and when nothing but
blanks stands between them the two statements are alike.
-/
namespace Flowchart

open Lexeme List

variable {b lexemes lexemes' taken' more rest : List Lexeme} {first : Lexeme}

theorem Lexeme.Alike.tokens {a : List Lexeme} (h : Alike a b) :
    List.Forall₂ Token.Same (a.map token) (b.map token) := by
  induction h with
  | nil => exact .nil
  | cons hfirst _ ih => exact .cons hfirst ih

/-- Lexemes of two files that have nothing but blanks between them. Those of the first file are not
cut by line breaks. -/
structure Close (src src' : Source) (lexemes lexemes' : List Lexeme) : Prop where
  laid : ∃ mark, src.Lays mark (lexemes.map token)
  laid' : ∃ mark, src'.Lays mark (lexemes'.map token)
  clean : ∀ lexeme ∈ lexemes, lexeme.token.spelling.Clean

variable {src src' : Source}

namespace Close

theorem left {a a' b' : List Lexeme} (h : Close src src' (a ++ b) (a' ++ b')) :
    Close src src' a a' := by
  obtain ⟨⟨mark, hlaid⟩, ⟨mark', hlaid'⟩, hclean⟩ := h
  rw [map_append] at hlaid hlaid'
  exact ⟨⟨_, hlaid.append.1⟩, ⟨_, hlaid'.append.1⟩,
    fun lexeme hmem => hclean lexeme (mem_append_left _ hmem)⟩

theorem right {a b a' b' : List Lexeme} (h : Close src src' (a ++ b) (a' ++ b')) :
    Close src src' b b' := by
  obtain ⟨⟨mark, hlaid⟩, ⟨mark', hlaid'⟩, hclean⟩ := h
  rw [map_append] at hlaid hlaid'
  exact ⟨⟨_, hlaid.append.2⟩, ⟨_, hlaid'.append.2⟩,
    fun lexeme hmem => hclean lexeme (mem_append_right _ hmem)⟩

theorem tail {a a' : Lexeme} {b' : List Lexeme} (h : Close src src' (a :: b) (a' :: b')) :
    Close src src' b b' :=
  @right src src' [a] b [a'] b' h

/-- The texts from the first to the last of such lexemes are alike. -/
theorem alike (h : Close src src' lexemes lexemes') (hne : lexemes ≠ [])
    (halike : Alike lexemes lexemes') :
    Text.Alike (ExprReader.extentOf src (lexemes.map token)).source
      (ExprReader.extentOf src' (lexemes'.map token)).source := by
  obtain ⟨⟨mark, hlaid⟩, ⟨mark', hlaid'⟩, hclean⟩ := h
  refine ExprReader.extentOf_alike halike.tokens (by simpa using hne) ?_ hlaid hlaid'
  intro token hmem
  obtain ⟨lexeme, hlexeme, rfl⟩ := mem_map.mp hmem
  exact hclean lexeme hlexeme

/-- So are these texts without the blanks around them. -/
theorem alike_trim (h : Close src src' lexemes lexemes') (hne : lexemes ≠ [])
    (halike : Alike lexemes lexemes') :
    Text.Alike (Text.trim (ExprReader.extentOf src (lexemes.map token)).source)
      (Text.trim (ExprReader.extentOf src' (lexemes'.map token)).source) := by
  obtain ⟨⟨mark, hlaid⟩, ⟨mark', hlaid'⟩, hclean⟩ := h
  cases halike with
  | nil => exact absurd rfl hne
  | @cons first first' more more' hfirst hmore =>
    have hspells := ExprReader.extentOf_spells hlaid (cons_ne_nil _ _)
    have hspells' := ExprReader.extentOf_spells hlaid' (cons_ne_nil _ _)
    rw [← ExprReader.map_spelling_of_same (Alike.cons hfirst hmore).tokens] at hspells'
    have hclean : ∀ s ∈ ((first :: more).map token).map Token.spelling, s.Clean := by
      intro s hs
      simp only [mem_map] at hs
      obtain ⟨token, ⟨lexeme, hlexeme, rfl⟩, rfl⟩ := hs
      exact hclean lexeme hlexeme
    have hclosed : (((first :: more).map token).map Token.spelling).getLast?.any
        Spelling.isComment = false := by
      cases hlast : (((first :: more).map token).map Token.spelling).getLast? with
      | none => rfl
      | some last => exact decide_eq_false (hclean last (mem_of_getLast? hlast)).1
    exact Text.alike_of_spells (hspells.writes_trim hclosed).spells
      (hspells'.writes_trim hclosed).spells hclean

end Close

theorem ExprReader.Forms.alike (src' : Source) {stop : Text} {taken : List Lexeme} {value : Expr}
    (h : Forms src stop taken value) (hstop : '\n' ∉ stop) (halike : Alike taken taken') :
    ∃ value', Forms src' stop taken' value' ∧
      (Close src src' taken taken' → value.Alike value') := by
  have hne : taken' ≠ [] := by
    rintro rfl
    cases halike
    exact h.nonempty rfl
  refine ⟨_, ⟨hne, (passes_alike hstop halike).symm.trans h.passes, rfl⟩, fun hclose => ?_⟩
  obtain ⟨⟨mark, hlaid⟩, ⟨mark', hlaid'⟩, hclean⟩ := hclose
  rw [h.value, ← halike.length_eq]
  refine ofTokens_alike halike.tokens ?_ hlaid hlaid'
  intro token hmem
  obtain ⟨lexeme, hlexeme, rfl⟩ := mem_map.mp hmem
  exact hclean lexeme hlexeme

namespace TypeText

theorem slice_eq_extentOf :
    src.slice first.token.start (Token.stopOf {} (flat (first :: more))) =
      (ExprReader.extentOf src ((first :: more).map token)).source := by
  obtain ⟨last, hlast⟩ : ∃ last, ((first :: more).map token).getLast? = some last :=
    Option.isSome_iff_exists.mp (by simp)
  rw [ExprReader.stopOf_flat_of_getLast? hlast]
  unfold ExprReader.extentOf
  rw [hlast]
  rfl

theorem Names.alike (src' : Source) {typed typed' : List Lexeme} {next next' : Lexeme}
    {typeName : Text} (h : Names src typed (next :: rest) typeName)
    (halike : Alike typed typed') (hnext : next.token.Same next'.token)
    (hcolon : next.token.is ":" = false) (rest' : List Lexeme) :
    ∃ typeName', Names src' typed' (next' :: rest') typeName' ∧
      (Close src src' typed typed' → Text.Alike typeName typeName') := by
  obtain ⟨stop', hfound⟩ := scan_alike hnext rest' hcolon halike h.found
  obtain ⟨first, more, rfl, rfl⟩ := h.text
  cases halike with
  | @cons _ first' _ more' hfirst hmore =>
    obtain ⟨head, tail, hsplit, hstop, -⟩ := scan_eq_found hfound
    have hparts : first' :: more' = head :: tail :=
      append_cancel_right (hsplit.trans (cons_append ..).symm)
    obtain ⟨rfl, rfl⟩ := List.cons.inj hparts
    have hflat : stop' = Token.stopOf {} (flat (first' :: more')) := by
      rw [hstop]
      simp only [flat, Token.stopOf_append, Token.stopOf_cons]
    refine ⟨_, ⟨hflat ▸ hfound, first', more', rfl, rfl⟩, fun hclose => ?_⟩
    rw [slice_eq_extentOf, slice_eq_extentOf]
    exact hclose.alike (cons_ne_nil _ _) (.cons hfirst hmore)

end TypeText

namespace StatementReader

open Token ExprReader

variable {c c' : Cursor}

theorem last_flat (hproper : ∀ lexeme ∈ first :: more, lexeme.Proper) :
    (first.token :: flat more).getLast?.any isComment = false := by
  induction more generalizing first with
  | nil => exact (hproper first mem_cons_self).1
  | cons second more ih =>
    rw [flat, ← cons_append, getLast?_append_of_ne_nil _ (cons_ne_nil _ _)]
    exact ih (forall_mem_cons.mp hproper).2

theorem closed_flat (hproper : ∀ lexeme ∈ first :: more, lexeme.Proper) :
    ((first.token :: flat more).map Token.spelling).getLast?.any Spelling.isComment = false :=
  (last_spelling _).trans (last_flat hproper)

/-- The text from the first token of some lexemes to the last one spells the tokens and the comments
between them. -/
theorem Sits.spells {left : List Lexeme} (h : Sits src c) (hrest : c.rest = first :: (more ++ left)) :
    Text.Spells (src.slice first.token.start (stopOf {} (flat (first :: more))))
      ((first.token :: flat more).map Token.spelling) := by
  obtain ⟨trailing, hlaid⟩ := h.laid
  have hsplit : flat c.rest ++ trailing =
      first.comments ++ ((first.token :: flat more) ++ (flat left ++ trailing)) := by
    rw [hrest, flat, flat_append]
    simp
  rw [hsplit] at hlaid
  have hspells := hlaid.append.2.append.1.spells
  rw [stopOf_cons] at hspells
  rw [flat, stopOf_append, stopOf_cons]
  exact hspells

theorem Sits.taken (h : Sits src c) : ∀ lexeme ∈ c.rest, lexeme.token.Taken := by
  obtain ⟨trailing, before, piece, after, -, -, hcuts, -⟩ := h.laid
  intro lexeme hmem
  refine hcuts.taken lexeme.token (mem_append_left _ ?_)
  obtain ⟨front, back, hsplit⟩ := append_of_mem hmem
  rw [hsplit, flat_append, flat]
  simp

theorem Initial.alike (src' : Source) {taken : List Lexeme} {init : Option Expr}
    (h : Initial src taken init) (halike : Alike taken taken') :
    ∃ init', Initial src' taken' init' ∧
      (Close src src' taken taken' → Expr.OptionAlike init init') := by
  cases h with
  | none hsemicolon =>
    cases halike with
    | cons hfirst hrest =>
      cases hrest
      exact ⟨_, .none ((hfirst.is (by decide)).symm.trans hsemicolon), fun _ => trivial⟩
  | some hequals hvalue hsemicolon =>
    cases halike with
    | cons hfirst hrest =>
      obtain ⟨taken', last, rfl, htaken, hlast⟩ := hrest.split
      cases hlast with
      | cons hlast hnil =>
        cases hnil
        obtain ⟨value', hvalue', hlike⟩ := hvalue.alike src' (by decide) htaken
        refine ⟨_, .some ((hfirst.is (by decide)).symm.trans hequals) hvalue'
          ((hlast.is (by decide)).symm.trans hsemicolon), fun hclose => ?_⟩
        exact hlike hclose.tail.left

theorem spelling_of_semicolon {token : Token} (h : token.Taken) (his : token.is ";") :
    token.cls = .symbol ∧ token.spelling = ⟨.symbol, ";"⟩ := by
  have htext : token.text = [';'] := is_iff.mp his
  have hcls := Text.cls_of_lone h htext (by decide)
  refine ⟨hcls, ?_⟩
  unfold Token.spelling
  rw [hcls, htext]
  rfl

theorem isSemicolon_of_taken {lexeme : Lexeme} (h : lexeme.token.Taken)
    (his : lexeme.token.is ";") : TypeText.isSemicolon lexeme := by
  unfold TypeText.isSemicolon
  rw [(spelling_of_semicolon h his).1, his]
  rfl

/-- A target that reaches past the semicolon of its statement has a semicolon in it. -/
theorem overreaches_of_stop {equals semicolon : Lexeme} {before taken left : List Lexeme}
    (extent : Extent) (value : Expr) (hsits : Sits src c)
    (hrest : c.rest = first :: before ++ equals :: (taken ++ [semicolon]) ++ (more ++ left))
    (hsemicolon : semicolon.token.is ";") :
    (Statement.assign extent (Text.trim (src.slice first.token.start (stopOf {}
      (flat (first :: before ++ equals :: (taken ++ semicolon :: more)))))) value).overreaches =
      true := by
  have hsplit : c.rest = first :: ((before ++ equals :: (taken ++ semicolon :: more)) ++ left) := by
    rw [hrest]
    simp
  have hproper : ∀ lexeme ∈ first :: (before ++ equals :: (taken ++ semicolon :: more)),
      lexeme.Proper := by
    intro lexeme hmem
    refine hsits.proper lexeme ?_
    rw [hsplit]
    exact mem_append_left _ hmem
  have hwrites := (hsits.spells hsplit).writes_trim (closed_flat hproper)
  have htaken := hsits.taken semicolon (by rw [hrest]; simp)
  refine Text.hasSemicolon_of_spells hwrites.spells (mem_cons_of_mem _ ?_)
  rw [← (spelling_of_semicolon htaken hsemicolon).2]
  exact mem_map_of_mem (by simp [flat_append, flat])

/-- Lexemes that are spelled like those of an expression are read as one too. -/
theorem Simple.expression_alike {taken rest' : List Lexeme} {semicolon semicolon' : Lexeme}
    {value' : Expr} (hfinal : taken.head?.any (·.token.is "final") = false)
    (hdeclares : declares (taken ++ semicolon :: rest) = false)
    (hstop : targetStop? 0 none (taken ++ semicolon :: rest) = none)
    (hpasses : ExprReader.passes ";" 0 (texts taken)) (hsemicolon : semicolon.token.is ";")
    (hends : semicolon.token.Taken) (htaken' : ∀ lexeme ∈ taken', lexeme.token.Taken)
    (halike : Alike taken taken') (hlast : semicolon.token.Same semicolon'.token)
    (hvalue' : ExprReader.Forms src' ";" taken' value') :
    Simple src' rest' (taken' ++ [semicolon']) (.expression · value') := by
  have hsemicolon' : semicolon'.token.is ";" := (hlast.is (by decide)).symm.trans hsemicolon
  have hdeclares' : declares (taken' ++ semicolon' :: rest') = false :=
    declares_alike htaken' halike hlast (isSemicolon_of_taken hends hsemicolon) hdeclares
  have hstop' : targetStop? 0 none (taken' ++ semicolon' :: rest') = none := by
    have hsome := @targetStop?_alike 0 none none taken taken' rest rest' semicolon semicolon'
      halike hpasses rfl hsemicolon hsemicolon'
    rw [hstop] at hsome
    exact Option.isSome_eq_false_iff.mp hsome.symm |> Option.isNone_iff_eq_none.mp
  exact .expression ((halike.head?_is (by decide)).symm.trans hfinal) hdeclares' hstop' hvalue'
    hsemicolon'

/-- Simple statements that are spelled alike are simple statements of the same form. -/
theorem Simple.alike {rest' : List Lexeme} {make : Shape} (h : Simple src rest lexemes make)
    (hsits : Sits src c) (hrest : c.rest = lexemes ++ rest) (hsits' : Sits src' c')
    (hrest' : c'.rest = lexemes' ++ rest') (halike : Alike lexemes lexemes')
    (hreach : ∀ extent, (make extent).overreaches = false) :
    ∃ make', Simple src' rest' lexemes' make' ∧ (Close src src' lexemes lexemes' →
      ∀ extent extent', Text.Alike extent.source extent'.source →
        (make extent).PlainAlike (make' extent')) := by
  have htaken (lexeme : Lexeme) (hmem : lexeme ∈ lexemes) : lexeme.token.Taken :=
    hsits.taken lexeme (hrest ▸ mem_append_left _ hmem)
  have htaken' (lexeme : Lexeme) (hmem : lexeme ∈ lexemes') : lexeme.token.Taken :=
    hsits'.taken lexeme (hrest' ▸ mem_append_left _ hmem)
  cases h with
  | @declaration final typed tail isFinal name typeName init hfinal htyped hname htail =>
    obtain ⟨final', _, rfl, hfinals, halike⟩ := halike.split
    obtain ⟨typed', _, rfl, htypes, halike⟩ := halike.split
    cases halike with
    | @cons _ name' _ tail' hnames htails =>
    have hcolon := isColon_of_isWord (htaken name (by simp)) hname
    obtain ⟨typeName', htyped', htypeLike⟩ := htyped.alike src' htypes hnames hcolon (tail' ++ rest')
    obtain ⟨init', htail', hinitLike⟩ := htail.alike src' htails
    refine ⟨_, .declaration ?_ htyped' (hnames.isWord.symm.trans hname) htail',
      fun hclose extent extent' hextent => ⟨hextent, rfl, htypeLike hclose.right.left,
        hnames.text_of_isWord hname, hinitLike hclose.right.right.tail⟩⟩
    rcases hfinal with ⟨rfl, word, rfl, hword⟩ | ⟨rfl, rfl, hword⟩
    · cases hfinals with
      | cons hwords hnil =>
        cases hnil
        exact .inl ⟨rfl, _, rfl, (hwords.is (by decide)).symm.trans hword⟩
    · cases hfinals
      exact .inr ⟨rfl, rfl, (htypes.head?_is (by decide)).symm.trans hword⟩
  | @assignment before taken first equals semicolon stop value hfinal hdeclares hbefore hequals
      hvalue hsemicolon hstop =>
    rcases target_cases hbefore hequals hvalue.passes hsemicolon hstop with
      ⟨hopen, rfl⟩ | ⟨more, left, rfl, rfl⟩
    · obtain ⟨front', _, rfl, hfronts, hafter⟩ := halike.split
      cases hfronts with
      | @cons _ first' _ before' hfirst hbefores =>
      cases hafter with
      | @cons _ equals' _ _ hequal hafter =>
      obtain ⟨taken', _, rfl, htakens, hlast⟩ := hafter.split
      cases hlast with
      | @cons _ semicolon' _ _ hlast hnil =>
      cases hnil
      have hfronts : Alike (first :: before) (first' :: before') := .cons hfirst hbefores
      have hsymbol := isSemicolon_of_taken (htaken semicolon (by simp)) hsemicolon
      have hequals' : equals'.token.is "=" := (hequal.is (by decide)).symm.trans hequals
      have hbefore' := hfronts.all_is (by decide) hbefore
      have hstop' : targetStop? 0 none
          (first' :: before' ++ equals' :: (taken' ++ semicolon' :: rest')) =
            some (stopOf {} (flat (first' :: before'))) :=
        targetStop?_of_openAfter hbefore' hequals' ((openAfter_alike hfronts).symm.trans hopen)
      have hdeclares' : declares
          (first' :: before' ++ equals' :: (taken' ++ semicolon' :: rest')) = false := by
        have hsplit (first equals semicolon : Lexeme) (before taken rest : List Lexeme) :
            first :: before ++ equals :: (taken ++ semicolon :: rest) =
              (first :: before ++ equals :: taken) ++ semicolon :: rest := by simp
        rw [hsplit] at hdeclares ⊢
        refine declares_alike ?_ (hfronts.append (.cons hequal htakens)) hlast hsymbol hdeclares
        intro lexeme hmem
        refine htaken' lexeme ?_
        simp only [mem_append, mem_cons] at hmem ⊢
        tauto
      obtain ⟨value', hvalue', hlike⟩ := hvalue.alike src' (by decide) htakens
      refine ⟨_, .assignment ((hfirst.is (by decide)).symm.trans hfinal) hdeclares' hbefore' hequals'
        hvalue' ((hlast.is (by decide)).symm.trans hsemicolon) hstop',
        fun hclose extent extent' hextent => ⟨hextent, ?_, hlike hclose.right.tail.left⟩⟩
      rw [TypeText.slice_eq_extentOf, TypeText.slice_eq_extentOf]
      exact hclose.left.alike_trim (cons_ne_nil _ _) hfronts
    · have hover := overreaches_of_stop default value hsits hrest hsemicolon
      exact absurd (hover.symm.trans (hreach default)) (by decide)
  | @expression taken semicolon value hfinal hdeclares hstop hvalue hsemicolon =>
    obtain ⟨taken', _, rfl, htakens, hlast⟩ := halike.split
    cases hlast with
    | @cons _ semicolon' _ _ hlast hnil =>
    cases hnil
    obtain ⟨value', hvalue', hlike⟩ := hvalue.alike src' (by decide) htakens
    exact ⟨_, .expression_alike hfinal hdeclares hstop hvalue.passes hsemicolon
      (htaken semicolon (by simp)) (fun lexeme hmem => htaken' lexeme (mem_append_left _ hmem))
      htakens hlast hvalue', fun hclose extent extent' hextent => ⟨hextent, hlike hclose.left⟩⟩

theorem startsSimple_alike {first first' : Token} {taken : List Lexeme} (hfirst : first.Same first')
    (htaken : Alike taken taken') :
    startsSimple first (taken.head?.map token) =
      startsSimple first' (taken'.head?.map token) := by
  have hsecond : (taken.head?.map token).any (·.is "=") =
      (taken'.head?.map token).any (·.is "=") := by
    rw [Option.any_map, Option.any_map]
    exact htaken.head?_is (by decide)
  unfold startsSimple
  simp (disch := decide) only [hfirst.is, hsecond]

/-- Plain statements that are spelled alike are plain statements of the same form. -/
theorem Plain.alike {first' : Lexeme} {taken rest' : List Lexeme} {make : Shape}
    (h : Plain src rest (first :: taken) make) (hsits : Sits src c)
    (hrest : c.rest = first :: taken ++ rest) (hsits' : Sits src' c')
    (hrest' : c'.rest = first' :: taken' ++ rest')
    (halike : Alike (first :: taken) (first' :: taken'))
    (hreach : ∀ extent, (make extent).overreaches = false) :
    ∃ make', Plain src' rest' (first' :: taken') make' ∧
      (Close src src' (first :: taken) (first' :: taken') →
        ∀ extent extent', Text.Alike extent.source extent'.source →
          (make extent).PlainAlike (make' extent')) := by
  cases h with
  | bare hbare hkeyword hsemicolon =>
    cases halike with
    | cons hfirst hmore =>
    cases hmore with
    | cons hlast hnil =>
    cases hnil
    have hword := (hfirst.is (by cases hbare <;> decide)).symm.trans hkeyword
    refine ⟨_, .bare hbare hword ((hlast.is (by decide)).symm.trans hsemicolon),
      fun _ _ _ hextent => ?_⟩
    cases hbare with
    | leave => exact ⟨hextent, trivial⟩
    | exitLoop | nextRound => exact hextent
  | gives hgives hkeyword hsecond hvalue hsemicolon =>
    cases halike with
    | cons hfirst hmore =>
    obtain ⟨taken', _, rfl, htakens, hlast⟩ := hmore.split
    cases hlast with
    | cons hlast hnil =>
    cases hnil
    obtain ⟨value', hvalue', hlike⟩ := hvalue.alike src' (by decide) htakens
    have hword := (hfirst.is (by cases hgives <;> decide)).symm.trans hkeyword
    refine ⟨_, .gives hgives hword (fun hne => ?_) hvalue'
      ((hlast.is (by decide)).symm.trans hsemicolon), fun hclose _ _ hextent => ?_⟩
    · have hsecond := hsecond hne
      rw [Option.any_map] at hsecond ⊢
      exact (htakens.head?_is (by decide)).symm.trans hsecond
    · cases hgives <;> exact ⟨hextent, hlike hclose.tail.left⟩
  | simple hstarts hsimple =>
    obtain ⟨make', hsimple', hlike⟩ := hsimple.alike hsits hrest hsits' hrest' halike hreach
    cases halike with
    | cons hfirst hmore =>
    exact ⟨make', .simple ((startsSimple_alike hfirst hmore).symm.trans hstarts) hsimple', hlike⟩

end StatementReader

end Flowchart
