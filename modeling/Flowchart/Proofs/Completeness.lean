import Flowchart.Proofs.Grammar

/-!
The other direction of the grammar. A phrase of the grammar that no broken statement is part of is
what the reader finds at its cursor: every reader takes the lexemes that the phrase takes, since each
choice it makes is fixed by the next tokens, and its bound is never reached.
-/
namespace Flowchart

open List hiding count

open Lexeme Token Reader

variable {c c₁ c₂ c' : Cursor} {taken rest : List Lexeme} {lexeme : Lexeme} {src : Source}
  {text : Text} {depth : Nat} {make : Shape} {first : Token} {body : Block}

namespace Cursor

theorem Takes.unique (h₁ : c.Takes taken c₁) (h₂ : c.Takes taken c₂) : c₁ = c₂ := by
  have hrest : c₁.rest = c₂.rest := append_cancel_left (h₁.rest.symm.trans h₂.rest)
  have hlast : c₁.last = c₂.last := h₁.last.trans h₂.last.symm
  have hlog : c₁.log = c₂.log := h₁.log.trans h₂.log.symm
  cases c₁
  cases c₂
  simp_all

theorem Takes.next (h : c.Takes [lexeme] c') : c.next = c' :=
  (takes_next h.rest).unique h

theorem Takes.split {a b : List Lexeme} (h : c.Takes (a ++ b) c') :
    ∃ between, c.Takes a between ∧ between.Takes b c' := by
  refine ⟨{ c with rest := b ++ c'.rest, last := stopOf c.last (flat a) }, ⟨?_, rfl, rfl⟩,
    ⟨rfl, ?_, h.log⟩⟩
  · rw [h.rest, append_assoc]
  · rw [h.last, flat_append, stopOf_append]

theorem Takes.cons {c c' : Cursor} {lexeme : Lexeme} {taken : List Lexeme}
    (h : c.Takes (lexeme :: taken) c') : c.Takes [lexeme] c.next ∧ c.next.Takes taken c' := by
  have hsplit : c.Takes ([lexeme] ++ taken) c' := h
  obtain ⟨between, hfirst, hrest⟩ := hsplit.split
  obtain rfl := hfirst.next
  exact ⟨hfirst, hrest⟩

theorem peek?_of_takes (h : c.Takes (lexeme :: taken) c') : c.peek? = some lexeme.token := by
  unfold peek?
  rw [h.rest]
  rfl

theorem at?_of_takes (h : c.Takes (lexeme :: taken) c') (text : Text) :
    c.at? text = lexeme.token.is text := by
  unfold at?
  rw [peek?_of_takes h]
  rfl

end Cursor

namespace Reader

open Cursor

theorem expect_of_takes (h : c.Takes [lexeme] c') (his : lexeme.token.is text) :
    expect src text c = .ok lexeme.token c' := by
  unfold expect
  rw [peek?_of_takes h]
  dsimp only
  rw [if_pos his, h.next]

theorem expectWord_of_takes (h : c.Takes [lexeme] c') (hword : lexeme.token.isWord) :
    expectWord src c = .ok lexeme.token c' := by
  unfold expectWord
  rw [peek?_of_takes h]
  dsimp only
  rw [if_pos hword, h.next]

theorem eat_of_takes (h : c.Takes [lexeme] c') (his : lexeme.token.is text) :
    eat text c = .ok true c' := by
  unfold eat
  rw [at?_of_takes h, if_pos his, h.next]

theorem eat_of_not_at (h : c.at? text = false) : eat text c = .ok false c := by
  unfold eat
  rw [h]
  rfl

end Reader

namespace TypeText

theorem read_of_names {typeName : Text} (htakes : c.Takes taken c')
    (h : Names src taken c'.rest typeName) : read src c = .ok typeName c' := by
  obtain ⟨first, more, rfl, rfl⟩ := h.text
  have hfound := h.found
  rw [← htakes.rest] at hfound
  have hc' : c' = { c with rest := c'.rest, last := stopOf {} (flat (first :: more)) } := by
    refine htakes.unique ⟨htakes.rest, ?_, rfl⟩
    rw [flat, stopOf_append, stopOf_append, stopOf_cons, stopOf_cons]
  unfold read
  rw [hfound, htakes.rest]
  exact congrArg _ hc'.symm

end TypeText

namespace ExprReader

theorem collect_of_passes {stop : Text} {more : List Lexeme} {next : Lexeme}
    (h : passes stop depth (texts taken)) (hnext : next.token.is stop) :
    collect src stop depth (taken ++ next :: more) =
      .ok (taken.map Lexeme.token, next :: more) := by
  induction taken generalizing depth with
  | nil =>
    obtain rfl : depth = 0 := of_decide_eq_true h
    rw [nil_append, collect]
    simp only [hnext]
    rfl
  | cons lexeme taken ih =>
    obtain ⟨hstop, hcases⟩ := passes_texts h
    rw [cons_append, collect.eq_def]
    dsimp only
    rw [if_neg hstop]
    rcases hcases with ⟨hopens, hmore⟩ | ⟨hopens, hcloses, inner, rfl, hmore⟩ |
      ⟨hopens, hcloses, hsemicolon, hmore⟩
    · rw [if_pos hopens, ih hmore]
      rfl
    · rw [if_neg hopens, if_pos hcloses]
      dsimp only
      rw [ih hmore]
      rfl
    · rw [if_neg hopens, if_neg hcloses, if_neg hsemicolon, ih hmore]
      rfl

/-- An expression before its stop symbol is read whole. -/
theorem readUntil_of_forms {stop : Text} {value : Expr} (htakes : c.Takes taken c')
    (hat : c'.at? stop) (h : Forms src stop taken value) :
    readUntil src stop c = .ok value c' := by
  obtain ⟨next, hnext, his⟩ := StatementReader.rest_of_at? hat
  obtain ⟨last, hlast⟩ : ∃ last, (taken.map Lexeme.token).getLast? = some last :=
    Option.isSome_iff_exists.mp (by simpa using h.nonempty)
  have hc' : c' = { c with rest := next :: c'.next.rest, last := last.stop } := by
    refine htakes.unique ⟨?_, (stopOf_flat_of_getLast? hlast).symm, rfl⟩
    rw [htakes.rest, hnext]
  unfold readUntil
  rw [htakes.rest, hnext, collect_of_passes h.passes his]
  dsimp only
  rw [hlast, length_map, h.value]
  exact congrArg _ hc'.symm

end ExprReader

namespace StatementReader

open Cursor Reader ExprReader

theorem valueToSemicolon_of_forms {semicolon : Lexeme} {value : Expr}
    (htakes : c.Takes (taken ++ [semicolon]) c') (h : Forms src ";" taken value)
    (hsemicolon : semicolon.token.is ";") : valueToSemicolon src c = .ok value c' := by
  obtain ⟨between, htaken, hlast⟩ := htakes.split
  have hat : between.at? ";" := (at?_of_takes hlast ";").trans hsemicolon
  unfold valueToSemicolon
  rw [bind_of_ok (readUntil_of_forms htaken hat h),
    bind_of_ok (expect_of_takes hlast hsemicolon)]
  rfl

theorem is_equals_of_semicolon {token : Token} (h : token.is ";") :
    token.is "=" = false := by
  have htext : token.text = ";" := is_iff.mp h
  unfold Token.is
  rw [htext]
  decide

theorem initializer_of_initial {init : Option Expr} (htakes : c.Takes taken c')
    (h : Initial src taken init) : initializer src c = .ok init c' := by
  unfold initializer
  cases h with
  | none hsemicolon =>
    have hat : c.at? "=" = false :=
      (at?_of_takes htakes "=").trans (is_equals_of_semicolon hsemicolon)
    rw [bind_of_ok (eat_of_not_at hat)]
    exact bind_of_ok (expect_of_takes htakes hsemicolon)
  | some hequals hvalue hsemicolon =>
    obtain ⟨hfirst, hrest⟩ := htakes.cons
    obtain ⟨between, htaken, hlast⟩ := hrest.split
    have hat : between.at? ";" := (at?_of_takes hlast ";").trans hsemicolon
    rw [bind_of_ok (eat_of_takes hfirst hequals), if_pos rfl,
      bind_of_ok (map_of_ok (readUntil_of_forms htaken hat hvalue))]
    exact bind_of_ok (expect_of_takes hlast hsemicolon)

theorem declaration?_of_names {typed : List Lexeme} {name follow : Lexeme} {typeName : Text}
    {next : Cursor} (htakes : c.Takes (typed ++ [name]) next) (hrest : next.rest = follow :: rest)
    (h : TypeText.Names src typed (name :: next.rest) typeName) (hname : name.token.isWord)
    (hfollow : (follow.token.is "=" || follow.token.is ";")) :
    declaration? src c = some (typeName, name.token.text, next) := by
  obtain ⟨first, more, rfl, rfl⟩ := h.text
  have hfound := h.found
  have hc : c.rest = first :: more ++ name :: next.rest := by
    rw [htakes.rest]
    simp
  have hnext : next = { c with rest := follow :: rest, last := name.token.stop } := by
    refine htakes.unique ⟨?_, ?_, rfl⟩
    · rw [htakes.rest, hrest]
    · simp only [flat_append, flat, stopOf_append, stopOf_cons, stopOf_nil]
  unfold declaration?
  rw [hc, hfound, hrest, cons_append]
  dsimp only
  rw [hname, hfollow, ← hnext]
  rfl

theorem afterEquals_append {before : List Lexeme} {equals : Lexeme}
    (hbefore : ∀ lexeme ∈ before, lexeme.token.is "=" = false)
    (hequals : equals.token.is "=") : afterEquals (before ++ equals :: rest) = rest := by
  induction before with
  | nil =>
    rw [nil_append, afterEquals, if_pos hequals]
  | cons lexeme before ih =>
    have hlexeme := hbefore lexeme mem_cons_self
    rw [cons_append, afterEquals, hlexeme]
    exact ih (forall_mem_cons.mp hbefore).2

theorem Initial.follow {init : Option Expr} (h : Initial src taken init) :
    ∃ follow rest, taken = follow :: rest ∧
      (follow.token.is "=" || follow.token.is ";") := by
  cases h with
  | none hsemicolon => exact ⟨_, _, rfl, by rw [hsemicolon, Bool.or_true]⟩
  | some hequals _ _ => exact ⟨_, _, rfl, by rw [hequals, Bool.true_or]⟩

/-- Where a target ends, what follows the first equals sign is read as its value. -/
theorem simple_of_targetStop? {stop : Mark} (hfinal : c.at? "final" = false)
    (hdeclares : declares c.rest = false) (hpeek : c.peek? = some first)
    (hstop : targetStop? 0 none c.rest = some stop) :
    simple src c = (valueToSemicolon src >>= fun value =>
      pure (.assign · (Text.trim (src.slice first.start stop)) value))
        { c with rest := afterEquals c.rest } := by
  unfold simple
  rw [bind_of_ok (eat_of_not_at hfinal), get_bind, declaration?_eq_none.mpr hdeclares]
  rw [if_neg Bool.false_ne_true, hpeek, hstop]
  dsimp only
  rw [set_bind]

/-- A declaration, an assignment or an expression is read as what it is. -/
theorem simple_of_simple (htakes : c.Takes taken c') (h : Simple src c'.rest taken make) :
    simple src c = .ok make c' := by
  cases h with
  | @declaration final typed tail isFinal name typeName init hfinal htyped hname htail =>
    obtain ⟨next, hbefore, hafter⟩ := htakes.split
    have heat : eat "final" c = .ok isFinal next := by
      rcases hfinal with ⟨rfl, word, rfl, hword⟩ | ⟨rfl, rfl, hword⟩
      · exact eat_of_takes hbefore hword
      · obtain rfl := (Takes.refl c).unique hbefore
        refine eat_of_not_at ?_
        obtain ⟨first, more, rfl, -⟩ := htyped.text
        exact (at?_of_takes hafter "final").trans hword
    have hsplit : next.Takes ((typed ++ [name]) ++ tail) c' := by simpa using hafter
    obtain ⟨last, hnamed, hinit⟩ := hsplit.split
    obtain ⟨follow, rest, rfl, hfollow⟩ := htail.follow
    have hrest : last.rest = follow :: (rest ++ c'.rest) := hinit.rest
    have hdeclared := declaration?_of_names hnamed hrest (hinit.rest ▸ htyped) hname hfollow
    unfold simple
    rw [bind_of_ok heat, get_bind, hdeclared]
    dsimp only
    rw [set_bind, bind_of_ok (initializer_of_initial hinit htail)]
    rfl
  | @assignment before taken first equals semicolon stop value hfinal hdeclares hbefore hequals
      hvalue hsemicolon hstop =>
    have hat : c.at? "final" = false := (at?_of_takes htakes "final").trans hfinal
    have hrest : c.rest = first :: before ++ equals :: (taken ++ semicolon :: c'.rest) := by
      rw [htakes.rest]
      simp
    have hvalueTakes : ({ c with rest := taken ++ semicolon :: c'.rest }).Takes
        (taken ++ [semicolon]) c' := by
      refine ⟨by simp, ?_, htakes.log⟩
      rw [htakes.last]
      simp only [flat_append, flat, stopOf_append, stopOf_cons]
    rw [simple_of_targetStop? hat (hrest ▸ hdeclares) (peek?_of_takes htakes) (hrest ▸ hstop), hrest,
      afterEquals_append hbefore hequals,
      bind_of_ok (valueToSemicolon_of_forms hvalueTakes hvalue hsemicolon)]
    rfl
  | @expression taken semicolon value hfinal hdeclares hstop hvalue hsemicolon =>
    have hrest : c.rest = taken ++ semicolon :: c'.rest := by
      rw [htakes.rest]
      simp
    obtain ⟨first, more, rfl⟩ := exists_cons_of_ne_nil hvalue.nonempty
    have hat : c.at? "final" = false := (at?_of_takes htakes "final").trans hfinal
    unfold simple
    rw [bind_of_ok (eat_of_not_at hat), get_bind,
      declaration?_eq_none.mpr (hrest ▸ hdeclares)]
    rw [if_neg Bool.false_ne_true, peek?_of_takes htakes, hrest, hstop]
    dsimp only
    rw [bind_of_ok (valueToSemicolon_of_forms htakes hvalue hsemicolon)]
    rfl

theorem peekSecond?_of_takes {first : Lexeme} (h : c.Takes (first :: taken) c') (hne : taken ≠ []) :
    c.peekSecond? = taken.head?.map Lexeme.token := by
  obtain ⟨second, more, rfl⟩ := exists_cons_of_ne_nil hne
  unfold peekSecond?
  rw [h.rest]
  rfl

theorem not_semicolon_of_passes {first : Lexeme} {more : List Lexeme}
    (h : passes ";" 0 (texts (first :: more))) : first.token.is ";" = false :=
  eq_false_of_ne_true fun his => (passes_texts h).1 ⟨rfl, his⟩

section

variable {block : Reader Block}

theorem shape_of_startsSimple (h : startsSimple first c.peekSecond?) :
    shape src block first c = simple src c := by
  unfold shape
  unfold startsSimple at h
  simp only [Bool.and_eq_true, Bool.not_eq_true', Bool.or_eq_false_iff] at h
  obtain ⟨⟨⟨⟨⟨⟨⟨⟨hreturn, hif⟩, hwhile⟩, hforeach⟩, hdo⟩, hlock⟩, hbreak⟩, hcontinue⟩, hraised⟩ :=
    h
  simp only [hreturn, hif, hwhile, hforeach, hdo, hlock, hbreak, hcontinue, Bool.false_eq_true,
    if_false]
  rw [get_bind, hraised]
  rfl

theorem shape_of_plain (htakes : c.Takes (⟨[], first⟩ :: taken) c')
    (h : Plain src c'.rest (⟨[], first⟩ :: taken) make) :
    shape src block first c = .ok make c' := by
  obtain ⟨hfirst, hrest⟩ := htakes.cons
  cases h with
  | bare hbare hkeyword hsemicolon =>
    unfold shape
    cases hbare with
    | leave =>
      rw [if_pos hkeyword, advance_bind, bind_of_ok (eat_of_takes hrest hsemicolon)]
      rfl
    | exitLoop | nextRound =>
      simp (disch := decide) only [is_of_is hkeyword, Bool.false_eq_true, if_false, hkeyword, if_true]
      rw [advance_bind, bind_of_ok (expect_of_takes hrest hsemicolon)]
      rfl
  | @gives _ _ _ semicolon taken value hgives hkeyword hsecond hvalue hsemicolon =>
    unfold shape
    have hread := valueToSemicolon_of_forms hrest hvalue hsemicolon
    cases hgives with
    | give =>
      obtain ⟨second, more, rfl⟩ := exists_cons_of_ne_nil hvalue.nonempty
      have hat : c.next.at? ";" = false :=
        (at?_of_takes hrest ";").trans (not_semicolon_of_passes hvalue.passes)
      rw [if_pos hkeyword, advance_bind, bind_of_ok (eat_of_not_at hat),
        if_neg Bool.false_ne_true, bind_of_ok hread]
      rfl
    | panic | fail =>
      have hpeek := peekSecond?_of_takes htakes (by simp)
      rw [head?_append, Option.or_of_isSome (isSome_head?.mpr hvalue.nonempty)] at hpeek
      simp (disch := decide) only [is_of_is hkeyword, Bool.false_eq_true, if_false]
      rw [get_bind, hpeek, hsecond (by decide), hkeyword, if_pos (by decide), advance_bind,
        bind_of_ok hread]
      rfl
  | simple hstarts hsimple =>
    have hne : taken ≠ [] := by
      have hlength := hsimple.two_le_length
      rintro rfl
      simp at hlength
    have hpeek := peekSecond?_of_takes htakes hne
    rw [← hpeek] at hstarts
    rw [shape_of_startsSimple hstarts]
    exact simple_of_simple htakes hsimple

theorem statement_of_shape (h : shape src block first c = .ok make c') :
    statement src block first c = .ok (make (src.extent first.start c'.last)) c' := by
  unfold statement
  rw [bind_of_ok h]
  rfl

end

theorem count_append (a b : List Lexeme) : count (a ++ b) = count a + count b := by
  induction a with
  | nil => rw [nil_append, count, Nat.zero_add]
  | cons lexeme a ih =>
    rw [cons_append, count, count]
    omega

/-- The number of lexemes that a phrase takes at least. -/
def Phrase.least : Phrase → Nat
  | .statement _ => 1
  | .statements _ => 0
  | .block _ => 1
  | .handler _ => 0
  | .conditional _ _ _ => 1
  | .other _ => 0

/-- Between the cursors no problem was reported and some lexemes were taken. -/
structure Progress (least : Nat) (c c' : Cursor) : Prop where
  log : c.log = c'.log
  length : c'.rest.length + least ≤ c.rest.length
  count : count c'.rest + least ≤ count c.rest

theorem Progress.trans {least more : Nat} (h : Progress least c c₁) (h' : Progress more c₁ c') :
    Progress (least + more) c c' where
  log := h.log.trans h'.log
  length := by have hfirst := h.length; have hsecond := h'.length; omega
  count := by have hfirst := h.count; have hsecond := h'.count; omega

theorem Progress.weaken {least more : Nat} (h : Progress more c c') (hle : least ≤ more) :
    Progress least c c' where
  log := h.log
  length := by have hlength := h.length; omega
  count := by have hcount := h.count; omega

theorem Progress.of_takes (h : c.Takes taken c') :
    Progress taken.length c c' where
  log := h.log.symm
  length := by rw [h.rest, length_append]; omega
  count := by
    have hle (lexemes : List Lexeme) : lexemes.length ≤ Lexeme.count lexemes := by
      induction lexemes with
      | nil => exact Nat.le_refl _
      | cons lexeme lexemes ih =>
        rw [length_cons, Lexeme.count]
        omega
    have htaken := hle taken
    rw [h.rest, count_append]
    omega

theorem comment?_progress {comment : Statement} (h : comment? src c = .ok (some comment) c') :
    Progress 0 c c' ∧ count c'.rest < count c.rest := by
  unfold comment? at h
  split at h
  · next first comments token rest hrest =>
    cases h
    have hsplit := congrArg List.length (commentRun_append first comments)
    rw [length_append] at hsplit
    refine ⟨⟨rfl, ?_, ?_⟩, ?_⟩ <;> rw [hrest] <;>
      simp only [Lexeme.count, length_cons] <;> omega
  · cases h

/-- A phrase after which the log is empty has no broken statement in it, so it makes progress. -/
theorem Reads.progress {phrase : Phrase} (h : Reads src phrase c c') (hlog : c'.log = []) :
    Progress phrase.least c c' := by
  induction h with
  | plain htakes _ => exact (Progress.of_takes htakes).weaken (by simp [Phrase.least])
  | cond _ _ ih => exact ih hlog
  | guarded htakes _ _ _ ihbody ihafter | conditional htakes _ _ _ _ ihbody ihafter =>
    have hafter := ihafter hlog
    have hbody := ihbody (hafter.log.trans hlog)
    exact (((Progress.of_takes htakes).trans hbody).trans hafter).weaken (by simp [Phrase.least])
  | alone _ | unhandled _ => exact .of_takes (.refl _)
  | chained htakes _ _ _ ih | fallback htakes _ _ ih | handled htakes _ _ _ _ ih =>
    exact ((Progress.of_takes htakes).trans (ih hlog)).weaken (by simp [Phrase.least])
  | block hopens _ _ hcloses _ ih =>
    have hcloses := Progress.of_takes hcloses
    have hbody := ih (hcloses.log.trans hlog)
    exact (((Progress.of_takes hopens).trans hbody).trans hcloses).weaken (by simp [Phrase.least])
  | done _ _ => exact .of_takes (.refl _)
  | comment hcomment _ ih => exact (comment?_progress hcomment).1.trans (ih hlog)
  | cons _ _ _ _ ihstatement ihmore =>
    have hmore := ihmore hlog
    have hstatement := ihstatement (hmore.log.trans hlog)
    exact (hstatement.trans hmore).weaken (by simp [Phrase.least])
  | broken _ _ _ _ _ hproblem _ ih => exact absurd ((ih hlog).log.trans hlog) hproblem.ne_nil

theorem Reads.block_at (h : Reads src (.block body) c c') : c.at? "\x7b" := by
  cases h with
  | block hopens hopening _ _ _ => exact (at?_of_takes hopens "\x7b").trans hopening

theorem Reads.conditional_first {condition : Expr} {otherwise : Otherwise}
    (h : Reads src (.conditional condition body otherwise) c c') :
    ∃ keyword, c.peek? = some keyword ∧ keyword.is "if" := by
  cases h with
  | conditional htakes hkeyword _ _ _ => exact ⟨_, peek?_of_takes htakes, hkeyword⟩

/-- What the reader of conditions does after the first block. -/
def alternative (src : Source) (block : Reader Block) (bound : Nat) (condition : Expr)
    (body : Block) : Reader (Expr × Block × Otherwise) := do
  if ← eat "else" then
    match (← get).peek? with
    | some token =>
      if token.is "if" then
        let (inner, innerBody, otherwise) ← conditional src block bound
        let extent := src.extent token.start (← get).last
        pure (condition, body, .cond extent inner innerBody otherwise)
      else pure (condition, body, .block (← block))
    | none => pure (condition, body, .block (← block))
  else pure (condition, body, .nothing)

/-- The reader of a phrase finds it between the cursors, with any bounds that are large enough. -/
def Found (src : Source) (c c' : Cursor) : Phrase → Prop
  | .statement found => ∀ depth first rest, c.rest.length ≤ depth → c.rest = ⟨[], first⟩ :: rest →
    statement src (block src depth) first c = .ok found c'
  | .statements found => ∀ depth bound opening, c.rest.length ≤ depth → count c.rest < bound →
    statements src (statement src (block src depth)) opening bound c = .ok found c'
  | .block found => ∀ depth, c.rest.length ≤ depth → block src depth c = .ok found c'
  | .handler found => ∀ depth, c.rest.length ≤ depth →
    handler src (block src depth) c = .ok found c'
  | .conditional condition body otherwise => ∀ depth bound, c.rest.length ≤ depth →
    c.rest.length ≤ bound →
    conditional src (block src depth) bound c = .ok (condition, body, otherwise) c'
  | .other found => ∀ depth bound condition body, c.rest.length ≤ depth →
    c.rest.length ≤ bound →
    alternative src (block src depth) bound condition body c = .ok (condition, body, found) c'

theorem comment?_of_rest (h : c.rest = ⟨[], first⟩ :: rest) : comment? src c = .ok none c := by
  unfold comment?
  rw [h]

theorem recovering_of_ok {read : Token → Reader Statement} {found : Statement}
    (h : read first c = .ok found c') : recovering src read first c = .ok found c' := by
  unfold recovering
  rw [h]

theorem positive_of_takes {bound : Nat} (h : c.Takes (lexeme :: taken) c')
    (hbound : c.rest.length ≤ bound) : ∃ inner, bound = inner + 1 := by
  rw [h.rest, cons_append, length_cons] at hbound
  exact ⟨bound - 1, by omega⟩

/-- A block in which nothing was reported is read whole. -/
theorem block_found {opening : Lexeme} {closing : Token} {body : List Statement}
    (hopens : c.Takes [opening] c₁) (hopening : opening.token.is "\x7b")
    (hfound : Found src c₁ c₂ (.statements body)) (hcloses : c₂.Takes [⟨[], closing⟩] c')
    (hclosing : closing.is "\x7d") :
    Found src c c' (.block (.mk (src.extent opening.token.start closing.stop) body)) := by
  intro depth hdepth
  rw [hopens.rest, length_append, length_singleton] at hdepth
  obtain ⟨depth, rfl⟩ : ∃ inner, depth = inner + 1 := ⟨depth - 1, by omega⟩
  unfold block
  rw [bind_of_ok (expect_of_takes hopens hopening), get_bind,
    bind_of_ok (hfound depth _ opening.token (by omega) (Nat.lt_succ_self _)),
    bind_of_ok (expect_of_takes hcloses hclosing)]
  rfl

theorem first_unique {first' : Token} {rest' : List Lexeme} (h : c.rest = ⟨[], first⟩ :: rest)
    (h' : c.rest = ⟨[], first'⟩ :: rest') : first = first' :=
  congrArg Lexeme.token (List.cons.inj (h.symm.trans h')).1

/-- A statement is found from its head, its block and its handler. -/
theorem shape_of_head {block : Reader Block} {make : Extent → Block → Handler → Statement}
    {handler : Handler} (htakes : c.Takes (⟨[], first⟩ :: taken) c₁)
    (hhead : Head src c₁.rest (⟨[], first⟩ :: taken) make) (hat : c₁.at? "\x7b")
    (hbody : block c₁ = .ok body c₂) (hhandler : StatementReader.handler src block c₂ = .ok handler c') :
    shape src block first c = .ok (make · body handler) c' := by
  cases hhead with
  | loop hfirst hcondition =>
    unfold shape
    simp (disch := decide) only [is_of_is hfirst, Bool.false_eq_true, if_false]
    rw [if_pos hfirst, advance_bind,
      bind_of_ok (readUntil_of_forms htakes.cons.2 hat hcondition), bind_of_ok hbody,
      bind_of_ok hhandler]
    rfl
  | @each _ name word typed taken typeName _ hfirst htyped hname hword hcollection =>
    obtain ⟨d₁, hread, hd₁⟩ := htakes.cons.2.split
    obtain ⟨hd₂, hd₃⟩ := hd₁.cons
    obtain ⟨hd₄, hd₅⟩ := hd₃.cons
    have htyped' : TypeText.Names src typed d₁.rest typeName := by
      rw [hd₁.rest]
      exact htyped
    unfold shape
    simp (disch := decide) only [is_of_is hfirst, Bool.false_eq_true, if_false]
    rw [if_pos hfirst, advance_bind,
      bind_of_ok (TypeText.read_of_names hread htyped'),
      bind_of_ok (expectWord_of_takes hd₂ hname),
      bind_of_ok (expect_of_takes hd₄ hword),
      bind_of_ok (readUntil_of_forms hd₅ hat hcollection),
      bind_of_ok hbody, bind_of_ok hhandler]
    rfl
  | attempt hfirst | lock hfirst =>
    unfold shape
    simp (disch := decide) only [is_of_is hfirst, Bool.false_eq_true, if_false]
    rw [if_pos hfirst, advance_bind, htakes.next, bind_of_ok hbody, bind_of_ok hhandler]
    rfl

/-- Every phrase of the grammar after which the log is empty is found by its reader. -/
theorem Reads.found {phrase : Phrase} (h : Reads src phrase c c') (hlog : c'.log = []) :
    Found src c c' phrase := by
  induction h with
  | plain htakes hplain =>
    intro depth first rest _ hrest
    obtain rfl := first_unique htakes.rest hrest
    exact statement_of_shape (shape_of_plain htakes hplain)
  | @cond first rest condition body otherwise c c' hfirst hcond ih =>
    intro depth first' rest' hdepth hrest
    obtain rfl := first_unique hfirst hrest
    obtain ⟨keyword, hpeek, hif⟩ := hcond.conditional_first
    unfold peek? at hpeek
    rw [hrest] at hpeek
    obtain rfl : first = keyword := Option.some.inj hpeek
    have hshape : shape src (StatementReader.block src depth) first c =
        .ok (.cond · condition body otherwise) c' := by
      unfold shape
      simp (disch := decide) only [is_of_is hif, Bool.false_eq_true, if_false]
      rw [if_pos hif, get_bind, bind_of_ok (ih hlog depth _ hdepth (Nat.le_refl _))]
      rfl
    exact statement_of_shape hshape
  | guarded htakes hhead hbody hhandler ihbody ihhandler =>
    intro depth first' rest hdepth hrest
    obtain rfl := first_unique htakes.rest hrest
    have hlog₂ := (hhandler.progress hlog).log.trans hlog
    have hfirst := (Progress.of_takes htakes).length
    have hsecond := (hbody.progress hlog₂).length
    exact statement_of_shape (shape_of_head htakes hhead hbody.block_at
      (ihbody hlog₂ depth (by omega)) (ihhandler hlog depth (by omega)))
  | conditional htakes hkeyword hcondition hbody hother ihbody ihother =>
    intro depth bound hdepth hbound
    obtain ⟨bound, rfl⟩ := positive_of_takes htakes hbound
    have hlog₂ := (hother.progress hlog).log.trans hlog
    have hfirst := (Progress.of_takes htakes).length
    have hsecond := (hbody.progress hlog₂).length
    dsimp only [Phrase.least] at hsecond
    unfold StatementReader.conditional
    rw [bind_of_ok (expect_of_takes htakes.cons.1 hkeyword),
      bind_of_ok (readUntil_of_forms htakes.cons.2 hbody.block_at hcondition),
      bind_of_ok (ihbody hlog₂ depth (by omega))]
    exact ihother hlog depth bound _ _ (by omega) (by omega)
  | alone helse =>
    intro depth bound condition body _ _
    unfold alternative
    rw [bind_of_ok (eat_of_not_at helse)]
    rfl
  | @chained _ next _ _ _ _ _ _ _ htakes helse hnext hinner ih =>
    intro depth bound condition body hdepth hbound
    have hlength := (Progress.of_takes htakes).length
    obtain ⟨word, hpeek, hif⟩ := hinner.conditional_first
    obtain rfl : next.token = word := by
      rw [peek?, hnext] at hpeek
      exact Option.some.inj hpeek
    unfold alternative
    rw [bind_of_ok (eat_of_takes htakes helse), if_pos rfl, get_bind, hpeek]
    dsimp only
    rw [if_pos hif, bind_of_ok (ih hlog depth bound (by omega) (by omega))]
    rfl
  | fallback htakes helse hlast ih =>
    intro depth bound condition body hdepth _
    have hlength := (Progress.of_takes htakes).length
    obtain ⟨opening, hopening, hbrace⟩ := rest_of_at? hlast.block_at
    unfold alternative
    rw [bind_of_ok (eat_of_takes htakes helse), if_pos rfl, get_bind, peek?, hopening, head?_cons,
      Option.map_some]
    dsimp only
    rw [if_neg (by rw [is_of_is hbrace (by decide)]; decide), bind_of_ok (ih hlog depth (by omega))]
    rfl
  | unhandled hno =>
    intro depth _
    unfold StatementReader.handler
    rw [get_bind, hno]
    rfl
  | handled htakes hon hfail hbinds hbody ih =>
    intro depth hdepth
    have hlength := (Progress.of_takes htakes).length
    have hblock := ih hlog depth (by omega)
    obtain ⟨hfirst, hsecond⟩ := htakes.cons
    unfold StatementReader.handler
    rw [get_bind, at?_of_takes htakes, peekSecond?_of_takes htakes (cons_ne_nil _ _),
      head?_cons, Option.map_some, Option.any_some, hon, hfail, Bool.true_and, if_pos rfl,
      advance_bind, advance_bind]
    cases hbinds with
    | nothing =>
      rw [hsecond.next, get_bind, hbody.block_at]
      exact bind_of_ok hblock
    | @error _ typed typeName hbrace htyped hname =>
      obtain ⟨hskip, hrest⟩ := hsecond.cons
      obtain ⟨between, hread, hlast⟩ := hrest.split
      have htyped' : TypeText.Names src typed between.rest typeName := by
        rw [hlast.rest]
        exact htyped
      obtain ⟨first, more, rfl, -⟩ := htyped.text
      rw [get_bind, (at?_of_takes hread "\x7b").trans hbrace, if_neg Bool.false_ne_true,
        bind_of_ok (TypeText.read_of_names hread htyped'),
        bind_of_ok (expectWord_of_takes hlast hname)]
      exact bind_of_ok hblock
  | block hopens hopening hbody hcloses hclosing ih =>
    exact block_found hopens hopening (ih ((Progress.of_takes hcloses).log.trans hlog)) hcloses
      hclosing
  | done hrest hclosing =>
    intro depth bound opening _ hbound
    obtain ⟨bound, rfl⟩ : ∃ inner, bound = inner + 1 := ⟨bound - 1, by omega⟩
    unfold statements
    rw [bind_of_ok (comment?_of_rest hrest)]
    dsimp only
    rw [get_bind, peek?, hrest, head?_cons, Option.map_some]
    dsimp only
    rw [if_pos hclosing]
    rfl
  | comment hcomment hmore ih =>
    intro depth bound opening hdepth hbound
    obtain ⟨bound, rfl⟩ : ∃ inner, bound = inner + 1 := ⟨bound - 1, by omega⟩
    obtain ⟨hprogress, hcount⟩ := comment?_progress hcomment
    have hlength := hprogress.length
    unfold statements
    rw [bind_of_ok hcomment]
    dsimp only
    rw [bind_of_ok (ih hlog depth bound opening (by omega) (by omega))]
    rfl
  | cons hrest hfirst hstatement hmore ihstatement ihmore =>
    intro depth bound opening hdepth hbound
    obtain ⟨bound, rfl⟩ : ∃ inner, bound = inner + 1 := ⟨bound - 1, by omega⟩
    have hlog₁ := (hmore.progress hlog).log.trans hlog
    have hprogress := hstatement.progress hlog₁
    have hlength := hprogress.length
    have hcount := hprogress.count
    have hread := ihstatement hlog₁ depth _ _ hdepth hrest
    dsimp only [Phrase.least] at hlength hcount
    unfold statements
    rw [bind_of_ok (comment?_of_rest hrest)]
    dsimp only
    rw [get_bind, peek?, hrest, head?_cons, Option.map_some]
    dsimp only
    rw [hfirst, if_neg Bool.false_ne_true, bind_of_ok (recovering_of_ok hread),
      bind_of_ok (ihmore hlog depth bound opening (by omega) (by omega))]
    rfl
  | broken _ _ _ _ _ hproblem hmore _ =>
    exact absurd ((hmore.progress hlog).log.trans hlog) hproblem.ne_nil

end StatementReader

/-- A text that holds one block of the grammar and nothing else is read as this block. -/
theorem Block.read_of_reads {tokens : List Token} (hscan : Token.scan src.text = .ok tokens)
    (h : StatementReader.Reads src (.block body) { rest := Lexeme.ofTokens [] tokens } c')
    (hlog : c'.log = []) (hrest : c'.rest = []) : Block.read src = .ok body := by
  have hblock := h.found hlog _ (Nat.le_succ _)
  have hwhole : FileReader.wholeBlock src { rest := Lexeme.ofTokens [] tokens } =
      .ok body c' := by
    unfold FileReader.wholeBlock
    rw [get_bind, bind_of_ok hblock, get_bind, Cursor.peek?, hrest]
    rfl
  unfold Block.read FileReader.run
  rw [hscan]
  simp only [bind, Except.bind, hwhole]
  rfl

end Flowchart
