import Flowchart.Proofs.Declaring
import Flowchart.Syntax.Expressions

/-!
Reading loses nothing. Every part of a tree that is read covers a piece of the text between two byte
offsets, has the positions of these offsets as its range and the piece as its source, and lies in
the part that holds it. Between the braces of a block and its statements stand blanks only.
-/
namespace Flowchart

open List

variable {src : Source} {low high : Nat} {lexeme : Lexeme} {taken rest : List Lexeme} {body : Block}
  {tokens : List Token} {parts : Nat → Nat → Prop}

namespace Extent

/-- The extent covers a piece between two byte offsets, and its parts lie in this piece. -/
def Holds (src : Source) (low high : Nat) (extent : Extent) (parts : Nat → Nat → Prop) : Prop :=
  ∃ start stop, low ≤ start ∧ stop ≤ high ∧ extent.Covers src start stop ∧ parts start stop

end Extent

namespace Expr

mutual

/-- The expression lies between two byte offsets, and its parts lie in it. -/
def Lossless (src : Source) (low high : Nat) : Expr → Prop
  | .check extent _ inner => extent.Holds src low high fun start stop => inner.Lossless src start stop
  | .call extent _ args => extent.Holds src low high fun start stop => AllLossless src start stop args
  | .other extent => extent.Holds src low high fun _ _ => True

def AllLossless (src : Source) (low high : Nat) : List Expr → Prop
  | [] => True
  | e :: rest => e.Lossless src low high ∧ AllLossless src low high rest

end

end Expr

mutual

/-- The statement covers the piece between two byte offsets, and its parts lie in it. -/
def Statement.Lossless (src : Source) (start stop : Nat) : Statement → Prop
  | .varDecl extent _ _ _ init => extent.Covers src start stop ∧
    ∀ value, init = some value → value.Lossless src start stop
  | .assign extent _ value => extent.Covers src start stop ∧ value.Lossless src start stop
  | .ret extent value => extent.Covers src start stop ∧
    ∀ given, value = some given → given.Lossless src start stop
  | .cond extent condition body otherwise => extent.Covers src start stop ∧
    condition.Lossless src start stop ∧ body.Lossless src start stop ∧
      otherwise.Lossless src start stop
  | .loop extent condition body handler => extent.Covers src start stop ∧
    condition.Lossless src start stop ∧ body.Lossless src start stop ∧
      handler.Lossless src start stop
  | .each extent _ _ collection body handler => extent.Covers src start stop ∧
    collection.Lossless src start stop ∧ body.Lossless src start stop ∧
      handler.Lossless src start stop
  | .attempt extent body handler => extent.Covers src start stop ∧ body.Lossless src start stop ∧
    handler.Lossless src start stop
  | .lock extent body handler => extent.Covers src start stop ∧ body.Lossless src start stop ∧
    handler.Lossless src start stop
  | .exitLoop extent => extent.Covers src start stop
  | .nextRound extent => extent.Covers src start stop
  | .panic extent value => extent.Covers src start stop ∧ value.Lossless src start stop
  | .fail extent value => extent.Covers src start stop ∧ value.Lossless src start stop
  | .expression extent value => extent.Covers src start stop ∧ value.Lossless src start stop
  | .comment extent _ => extent.Covers src start stop
  | .invalid extent => extent.Covers src start stop

/-- What follows the block of a condition lies between two byte offsets, and its parts in it. -/
def Otherwise.Lossless (src : Source) (low high : Nat) : Otherwise → Prop
  | .nothing => True
  | .cond extent condition body otherwise => extent.Holds src low high fun start stop =>
    condition.Lossless src start stop ∧ body.Lossless src start stop ∧
      otherwise.Lossless src start stop
  | .block body => body.Lossless src low high

def Handler.Lossless (src : Source) (low high : Nat) : Handler → Prop
  | .nothing => True
  | .onFail _ body => body.Lossless src low high

/-- The block lies between two byte offsets, with a brace at either end and nothing but its
statements and blanks between the braces. -/
def Block.Lossless (src : Source) (low high : Nat) : Block → Prop
  | .mk extent statements => extent.Holds src low high fun start stop =>
    Text.Between src.text start (start + 1) "\x7b" ∧ Text.Between src.text (stop - 1) stop "\x7d" ∧
      Statement.Sequence src (start + 1) (stop - 1) statements

/-- The statements follow one another between two byte offsets, with blanks before, between and
after them. -/
def Statement.Sequence (src : Source) (low high : Nat) : List Statement → Prop
  | [] => Text.Gap src.text low high
  | statement :: rest => ∃ start stop, Text.Gap src.text low start ∧
    statement.Lossless src start stop ∧ Statement.Sequence src stop high rest

end

namespace ExprReader

open Lexeme Token

theorem holds_extentOf (hordered : src.Ordered tokens) (hne : tokens ≠ [])
    (hlow : ∀ token ∈ tokens, low ≤ src.offset token.start)
    (hhigh : ∀ token ∈ tokens, src.offset token.stop ≤ high)
    (hparts : ∀ start stop, (∀ token ∈ tokens, start ≤ src.offset token.start) → (∀ token ∈ tokens,
      src.offset token.stop ≤ stop) → parts start stop) :
    (extentOf src tokens).Holds src low high parts := by
  obtain ⟨first, hfirst⟩ := Option.isSome_iff_exists.mp (isSome_head?.mpr hne)
  obtain ⟨last, hlast⟩ := Option.isSome_iff_exists.mp (getLast?_isSome.mpr hne)
  have hends := hordered.ends hfirst hlast
  have hfirstMem := mem_of_mem_head? hfirst
  have hlastMem := mem_of_mem_getLast? hlast
  have hlt : first.start.index < last.stop.index := by
    have := (hordered.placed first hfirstMem).2.2
    have := (hends first hfirstMem).2
    omega
  refine ⟨src.offset first.start, src.offset last.stop, hlow first hfirstMem, hhigh last hlastMem,
    ?_, ?_⟩
  · have hextent : extentOf src tokens = src.extent first.start last.stop := by
      unfold extentOf
      rw [hfirst, hlast]
    rw [hextent]
    exact Source.covers_extent (hordered.placed first hfirstMem).1
      (hordered.placed last hlastMem).2.1 hlt
  · exact hparts _ _ (fun token hmem => Source.offset_mono (hends token hmem).1)
      (fun token hmem => Source.offset_mono (hends token hmem).2)

theorem allLossless_of_forall {exprs : List Expr} (h : ∀ e ∈ exprs, e.Lossless src low high) :
    Expr.AllLossless src low high exprs := by
  induction exprs with
  | nil => trivial
  | cons e exprs ih =>
    exact ⟨h e mem_cons_self, ih (forall_mem_cons.mp h).2⟩

/-- The expression of some tokens lies where the tokens do. -/
theorem ofTokens_lossless {bound : Nat} (hordered : src.Ordered tokens) (hne : tokens ≠ [])
    (hlow : ∀ token ∈ tokens, low ≤ src.offset token.start)
    (hhigh : ∀ token ∈ tokens, src.offset token.stop ≤ high) :
    (ofTokens src bound tokens).Lossless src low high := by
  induction bound generalizing low high tokens with
  | zero => exact holds_extentOf hordered hne hlow hhigh fun _ _ _ _ => trivial
  | succ bound ih =>
    -- What the tokens of a part form lies where the part does.
    have hpart {part : List Token} {start stop : Nat} (hsub : part.Sublist tokens) (hne : part ≠ [])
        (hstart : ∀ token ∈ tokens, start ≤ src.offset token.start)
        (hstop : ∀ token ∈ tokens, src.offset token.stop ≤ stop) :
        (ofTokens src bound part).Lossless src start stop :=
      ih (hordered.sublist hsub) hne (fun token hmem => hstart token (hsub.subset hmem))
        (fun token hmem => hstop token (hsub.subset hmem))
    rcases ofTokens_cases src (bound + 1) tokens with h |
      ⟨_, first, rest, ⟨⟩, rfl, hrest, -, h⟩ | ⟨_, head, inner, callee, ⟨⟩, hparts, -, -, h⟩
    · rw [h]
      exact holds_extentOf hordered hne hlow hhigh fun _ _ _ _ => trivial
    · rw [h]
      exact holds_extentOf hordered hne hlow hhigh fun start stop =>
        hpart (sublist_cons_self first rest) hrest
    · rw [h]
      refine holds_extentOf hordered hne hlow hhigh fun start stop hstart hstop => ?_
      refine allLossless_of_forall fun e he => ?_
      obtain ⟨group, hgroup, rfl⟩ := mem_map.mp he
      obtain ⟨hwithin, hfull⟩ := argument_within hparts hgroup
      exact hpart hwithin.sublist hfull hstart hstop

end ExprReader

theorem Expr.mem_withParts (e : Expr) : e ∈ e.withParts := by
  cases e <;> simp [withParts]

theorem Expr.partsOfEach_eq (es : List Expr) : partsOfEach es = es.flatMap withParts := by
  induction es with
  | nil => rfl
  | cons e es ih => rw [partsOfEach, ih, flatMap_cons]

/-- Each part of an expression is formed by some of its tokens, which stand next to each other. -/
theorem ExprReader.parts_ofTokens {bound : Nat} (hne : tokens ≠ []) :
    ∀ part ∈ (ofTokens src bound tokens).withParts, ∃ bound' group, group <:+: tokens ∧ group ≠ [] ∧
      part = ofTokens src bound' group := by
  induction bound generalizing tokens with
  | zero => exact forall_mem_singleton.mpr ⟨0, tokens, infix_rfl, hne, rfl⟩
  | succ bound ih =>
    have hself : ∃ bound' group, group <:+: tokens ∧ group ≠ [] ∧
        ofTokens src (bound + 1) tokens = ofTokens src bound' group :=
      ⟨_, tokens, infix_rfl, hne, rfl⟩
    -- What some of the tokens form has its parts among them.
    have hpart {group : List Token} (hgroup : group <:+: tokens) (hfull : group ≠ []) :
        ∀ part ∈ (ofTokens src bound group).withParts, ∃ bound' group, group <:+: tokens ∧
          group ≠ [] ∧ part = ofTokens src bound' group := by
      intro part hmem
      obtain ⟨bound', inner, hinner, hrest⟩ := ih hfull part hmem
      exact ⟨bound', inner, hinner.trans hgroup, hrest⟩
    rcases ofTokens_cases src (bound + 1) tokens with heq | ⟨_, first, rest, ⟨⟩, rfl, hrest, -, heq⟩ |
      ⟨_, head, inner, callee, ⟨⟩, hparts, -, -, heq⟩
    · rw [heq] at hself ⊢
      exact forall_mem_singleton.mpr hself
    · rw [heq] at hself ⊢
      exact forall_mem_cons.mpr ⟨hself, hpart (suffix_cons first rest).isInfix hrest⟩
    · rw [heq] at hself ⊢
      rw [Expr.withParts, Expr.partsOfEach_eq, flatMap_map]
      refine forall_mem_cons.mpr ⟨hself, forall_mem_flatMap.mpr fun group hgroup => ?_⟩
      obtain ⟨hwithin, hfull⟩ := argument_within hparts hgroup
      exact hpart hwithin hfull

namespace Extent

theorem Holds.mono {low' high' : Nat} {extent : Extent} (h : extent.Holds src low high parts)
    (hlow : low' ≤ low) (hhigh : high ≤ high') : extent.Holds src low' high' parts := by
  obtain ⟨start, stop, hstart, hstop, hcovers, hparts⟩ := h
  exact ⟨start, stop, hlow.trans hstart, hstop.trans hhigh, hcovers, hparts⟩

end Extent

section

variable {low' high' : Nat} (hlow : low' ≤ low) (hhigh : high ≤ high')

include hlow hhigh

theorem Block.Lossless.mono {block : Block} (h : block.Lossless src low high) :
    block.Lossless src low' high' := by
  cases block with
  | mk => exact Extent.Holds.mono h hlow hhigh

theorem Handler.Lossless.mono {handler : Handler} (h : handler.Lossless src low high) :
    handler.Lossless src low' high' := by
  cases handler with
  | nothing => trivial
  | onFail => exact Block.Lossless.mono hlow hhigh h

theorem Otherwise.Lossless.mono {otherwise : Otherwise} (h : otherwise.Lossless src low high) :
    otherwise.Lossless src low' high' := by
  cases otherwise with
  | nothing => trivial
  | cond => exact Extent.Holds.mono h hlow hhigh
  | block => exact Block.Lossless.mono hlow hhigh h

end

namespace StatementReader

open Lexeme Token Source ExprReader

variable {c c' : Cursor}

theorem map_token_sublist (lexemes : List Lexeme) :
    (lexemes.map Lexeme.token).Sublist (flat lexemes) := by
  induction lexemes with
  | nil => exact nil_sublist _
  | cons lexeme lexemes ih =>
    exact (ih.cons_cons lexeme.token).trans (sublist_append_right _ _)

/-- An expression among lexemes that were taken lies between the first of them and their end, with all
its parts. -/
theorem parts_lossless {stop : Text} {value : Expr} {part : List Lexeme} {next : Cursor}
    (h : Sits src c) (htakes : c.Takes (lexeme :: taken) next)
    (hforms : Forms src stop part value) (hpart : part <:+: lexeme :: taken)
    (hnext : next.last.index ≤ c'.last.index) : ∀ e ∈ value.withParts,
      e.Lossless src (src.offset lexeme.token.start) (src.offset c'.last) := by
  obtain ⟨hlays, -⟩ := h.lays (.of_takes htakes)
  obtain ⟨hordered, hwithin⟩ := hlays.ordered
  have htokens : (lexeme.token :: taken.map Lexeme.token).Sublist (flat (lexeme :: taken)) :=
    map_token_sublist (lexeme :: taken)
  have hends := (pairwise_cons.mp (hordered.sublist htokens).sorted).1
  have hplaced := (hordered.sublist htokens).placed lexeme.token mem_cons_self
  intro e he
  rw [hforms.value] at he
  obtain ⟨bound, group, hgroup, hfull, rfl⟩ := parts_ofTokens (by simpa using hforms.nonempty) e he
  have hamong := hgroup.sublist.trans (hpart.sublist.map Lexeme.token)
  have hsub := hamong.trans (map_token_sublist _)
  apply ofTokens_lossless (hordered.sublist hsub) hfull
  · intro token hmem
    apply offset_mono
    rcases mem_cons.mp (hamong.subset hmem) with rfl | hrest
    · exact le_rfl
    · have := hends token hrest
      omega
  · intro token hmem
    apply offset_mono
    have hle := (hwithin token (hsub.subset hmem)).2
    rw [← htakes.last] at hle
    omega

theorem lossless_of_isPlain {statement : Statement} {start stop : Nat} (h : statement.isPlain)
    (hcovers : statement.extent.Covers src start stop)
    (hparts : ∀ e ∈ statement.expressions, e.Lossless src start stop) :
    statement.Lossless src start stop := by
  cases statement with
  | varDecl | ret =>
    refine ⟨hcovers, ?_⟩
    rintro value rfl
    exact hparts value (by simp [Statement.expressions, value.mem_withParts])
  | assign | panic | fail | expression => exact ⟨hcovers, hparts _ (Expr.mem_withParts _)⟩
  | exitLoop | nextRound => exact hcovers
  | _ => cases h

/-- Each expression of a plain statement is a part of one that some of its lexemes form. -/
theorem Plain.forms (h : Plain src rest taken make) (extent : Extent) :
    ∀ e ∈ (make extent).expressions, ∃ stop part value, Forms src stop part value ∧
      part <:+: taken ∧ e ∈ value.withParts := by
  intro e hmem
  cases h with
  | bare hbare => cases hbare <;> cases hmem
  | @gives _ _ keyword semicolon taken value hgives _ _ hvalue _ =>
    refine ⟨_, taken, value, hvalue, ⟨[keyword], [semicolon], by simp⟩, ?_⟩
    cases hgives with
    | give => simpa [Statement.expressions] using hmem
    | panic | fail => simpa only [Statement.expressions] using hmem
  | @simple first taken _ _ hsimple =>
    generalize first :: taken = whole at hsimple ⊢
    cases hsimple with
    | @declaration final typed tail isFinal name typeName init _ _ _ htail =>
      cases htail with
      | none => cases hmem
      | @some equals semicolon taken value _ hvalue _ =>
        refine ⟨_, taken, value, hvalue,
          ⟨final ++ (typed ++ [name, equals]), [semicolon], by simp⟩, ?_⟩
        simpa [Statement.expressions] using hmem
    | @assignment before taken first equals semicolon _ value _ _ _ _ hvalue =>
      exact ⟨_, taken, value, hvalue, ⟨first :: before ++ [equals], [semicolon], by simp⟩, hmem⟩
    | @expression taken semicolon value _ _ _ hvalue =>
      exact ⟨_, taken, value, hvalue, ⟨[], [semicolon], by simp⟩, hmem⟩

theorem plain_lossless {make : Shape} (h : Sits src c) (htakes : c.Takes (lexeme :: taken) c')
    (hplain : Plain src rest (lexeme :: taken) make) :
    (make (src.extent lexeme.token.start c'.last)).Lossless src (src.offset lexeme.token.start)
      (src.offset c'.last) := by
  have hmarks := (h.lays (.of_takes htakes)).2.marks
  apply lossless_of_isPlain (hplain.isPlain _)
  · rw [hplain.extent_eq]
    exact h.covers htakes le_rfl hmarks
  · intro e he
    obtain ⟨stop, part, value, hvalue, hpart, hmem⟩ := hplain.forms _ e he
    exact parts_lossless h htakes hvalue hpart le_rfl e hmem

/-- What it means for a phrase between two cursors to be without loss. -/
def Phrase.Lossless (src : Source) (c c' : Cursor) : Phrase → Prop
  | .statement found => ∀ first rest, c.rest = ⟨[], first⟩ :: rest →
    found.Lossless src (src.offset first.start) (src.offset c'.last)
  | .statements found => ∀ closing rest, c'.rest = ⟨[], closing⟩ :: rest →
    Statement.Sequence src (src.offset c.last) (src.offset closing.start) found
  | .block found => found.Lossless src (src.offset c.last) (src.offset c'.last)
  | .handler found => found.Lossless src (src.offset c.last) (src.offset c'.last)
  | .conditional condition body otherwise => ∀ first rest, c.rest = first :: rest →
    (src.extent first.token.start c'.last).Covers src (src.offset first.token.start)
      (src.offset c'.last) ∧
    condition.Lossless src (src.offset first.token.start) (src.offset c'.last) ∧
    body.Lossless src (src.offset first.token.start) (src.offset c'.last) ∧
    otherwise.Lossless src (src.offset first.token.start) (src.offset c'.last)
  | .other found => found.Lossless src (src.offset c.last) (src.offset c'.last)

theorem eq_head {lexeme' : Lexeme} {rest' : List Lexeme} (h : c.rest = lexeme :: rest)
    (h' : c.rest = lexeme' :: rest') : lexeme' = lexeme := by
  rw [h] at h'
  exact (List.cons.inj h').1.symm

theorem brace_length {text : Text} {start stop : Nat} {c : Char} (hc : c.utf8Size = 1)
    (h : Text.Between text start stop [c]) : stop = start + 1 := by
  obtain ⟨before, after, -, rfl, rfl⟩ := h
  rw [Text.byteLength_append, Text.byteLength, Text.byteLength, hc]

theorem Reads.lossless {phrase : Phrase} (h : Reads src phrase c c') (hsits : Sits src c) :
    phrase.Lossless src c c' := by
  induction h with
  | plain htakes hplain =>
    intro first rest hrest
    cases eq_head htakes.rest hrest
    exact plain_lossless hsits htakes hplain
  | cond hfirst hcond ih =>
    intro first rest hrest
    cases eq_head hfirst hrest
    exact ih hsits _ _ hrest
  | @guarded first _ _ _ _ _ _ _ _ htakes hhead hbody hhandler ihbody ihhandler =>
    intro first' rest hrest
    cases eq_head htakes.rest hrest
    obtain ⟨hsits₁, -⟩ := hsits.takes htakes
    obtain ⟨hsits₂, hle₂⟩ := hsits₁.reads hbody
    obtain ⟨hsits₃, hle₃⟩ := hsits₂.reads hhandler
    have hlt := hsits.start_lt htakes
    have hcovers := hsits.covers htakes (hle₂.trans hle₃) hsits₃.marks
    have hblock := Block.Lossless.mono (offset_mono hlt.le) (offset_mono hle₃) (ihbody hsits₁)
    have hafter := Handler.Lossless.mono (offset_mono (hlt.le.trans hle₂)) le_rfl (ihhandler hsits₂)
    cases hhead with
    | loop _ hforms =>
      exact ⟨hcovers, parts_lossless hsits htakes hforms (suffix_cons _ _).isInfix (hle₂.trans hle₃) _
        (Expr.mem_withParts _), hblock, hafter⟩
    | @each _ name word typed _ _ _ _ _ _ _ hforms =>
      exact ⟨hcovers, parts_lossless hsits htakes hforms ⟨⟨[], first⟩ :: (typed ++ [name, word]), [],
        by simp⟩ (hle₂.trans hle₃) _ (Expr.mem_withParts _), hblock, hafter⟩
    | attempt | lock => exact ⟨hcovers, hblock, hafter⟩
  | conditional htakes _ hforms hbody hother ihbody ihother =>
    intro first rest hrest
    cases eq_head htakes.rest hrest
    obtain ⟨hsits₁, -⟩ := hsits.takes htakes
    obtain ⟨hsits₂, hle₂⟩ := hsits₁.reads hbody
    obtain ⟨hsits₃, hle₃⟩ := hsits₂.reads hother
    have hlt := hsits.start_lt htakes
    exact ⟨hsits.covers htakes (hle₂.trans hle₃) hsits₃.marks,
      parts_lossless hsits htakes hforms (suffix_cons _ _).isInfix (hle₂.trans hle₃) _
        (Expr.mem_withParts _),
      Block.Lossless.mono (offset_mono hlt.le) (offset_mono hle₃) (ihbody hsits₁),
      Otherwise.Lossless.mono (offset_mono (hlt.le.trans hle₂)) le_rfl (ihother hsits₂)⟩
  | alone _ | unhandled _ => trivial
  | chained htakes _ hnext _ ih =>
    obtain ⟨hsits₁, hle⟩ := hsits.takes htakes
    have hstart := (hsits₁.token hnext).2.2.2.1
    obtain ⟨hcovers, hparts⟩ := ih hsits₁ _ _ hnext
    exact ⟨_, _, offset_mono (hle.trans hstart), le_rfl, hcovers, hparts⟩
  | fallback htakes _ _ ih | handled htakes _ _ _ _ ih =>
    obtain ⟨hsits₁, hle⟩ := hsits.takes htakes
    exact Block.Lossless.mono (offset_mono hle) le_rfl (ih hsits₁)
  | @block opening closing statements c c₁ c₂ c' hopens hopening hbody hcloses hclosing ih =>
    obtain ⟨hsits₁, -⟩ := hsits.takes hopens
    obtain ⟨hsits₂, hle₂⟩ := hsits₁.reads hbody
    obtain ⟨hsits₃, hle₃⟩ := hsits₂.takes hcloses
    obtain ⟨hstart, -, -, hle, hopenText⟩ := hsits.token hopens.rest
    obtain ⟨-, -, -, -, hcloseText⟩ := hsits₂.token hcloses.rest
    have hopened : c₁.last = opening.token.stop := by
      rw [hopens.last]
      simp only [flat, stopOf_append, stopOf_cons, stopOf_nil]
    have hclosed : c'.last = closing.stop := hcloses.last
    rw [ExprReader.is_iff.mp hopening, ← hopened] at hopenText
    rw [ExprReader.is_iff.mp hclosing, ← hclosed] at hcloseText
    have hfirst : src.offset c₁.last = src.offset opening.token.start + 1 :=
      brace_length (by decide) hopenText
    have hlast : src.offset c'.last - 1 = src.offset closing.start := by
      rw [brace_length (by decide) hcloseText, Nat.add_sub_cancel]
    have hcovers := hsits.covers hopens (hle₂.trans hle₃) hsits₃.marks
    rw [← hclosed]
    refine ⟨_, _, offset_mono hle, le_rfl, hcovers, ?_, ?_, ?_⟩
    · rw [← hfirst]
      exact hopenText
    · rw [hlast]
      exact hcloseText
    · rw [← hfirst, hlast]
      exact ih hsits₁ _ _ hcloses.rest
  | done hrest hclosing =>
    intro closing rest hclose
    exact hsits.gap hclose
  | comment hcomment hmore ih =>
    intro closing rest hclose
    obtain ⟨first, run, lines, hsteps, rfl⟩ := comment?_steps hcomment
    obtain ⟨hlays, hsits₁⟩ := hsits.lays hsteps
    have hcovers := hlays.covers
    rw [← hsteps.last] at hcovers
    exact ⟨_, _, hlays.first.2.2.2.2.1, hcovers, ih hsits₁ _ _ hclose⟩
  | cons hrest hfirst hstatement hmore ihstatement ihmore =>
    intro closing rest hclose
    obtain ⟨hsits₁, -⟩ := hsits.reads hstatement
    exact ⟨_, _, hsits.gap hrest, ihstatement hsits _ _ hrest, ihmore hsits₁ _ _ hclose⟩
  | broken hrest hfirst hskip hleft hlast _ hmore ih =>
    intro closing rest hclose
    obtain ⟨more, hsteps⟩ := skipBroken_steps hrest hfirst hskip hleft hlast
    obtain ⟨hlays, hsits₁⟩ := hsits.lays hsteps
    have hcovers := hlays.covers
    rw [← hsteps.last] at hcovers
    rw [← hlast]
    exact ⟨_, _, hlays.first.2.2.2.2.1, hcovers, ih hsits₁ _ _ hclose⟩

theorem Reads.block_lossless (h : Reads src (.block body) c c') (hsits : Sits src c) :
    body.Lossless src 0 (Text.byteLength src.text) :=
  Block.Lossless.mono (Nat.zero_le _) (offset_le src _) (h.lossless hsits)

end StatementReader

/-- Every function body of a file that can be read, and every block that can be read on its own, is
read without loss. -/
theorem read_lossless (src : Source) :
    (∀ file, SourceFile.read src = .ok file → ∀ function ∈ file.functions,
      function.body.Lossless src 0 (Text.byteLength src.text)) ∧
    ∀ block, Block.read src = .ok block → block.Lossless src 0 (Text.byteLength src.text) := by
  constructor
  · intro file h function hfunction
    obtain ⟨_, _, hsits, -, -, -, hdeclares⟩ := SourceFile.declares_of_read h
    obtain ⟨_, _, _, _, _, -, -, hsits, -, hbody⟩ := hdeclares.place hsits function hfunction
    exact hbody.block_lossless hsits
  · intro block h
    obtain ⟨⟨found, cursor⟩, hrun, hdone⟩ := Except.bind_eq_ok h
    cases hdone
    obtain ⟨c, hsits, hread⟩ := FileReader.run_eq_ok hrun
    unfold FileReader.wholeBlock at hread
    rw [Reader.get_bind] at hread
    obtain ⟨body, c₁, hbody, hend⟩ := Reader.bind_eq_ok hread
    have hlossless := (StatementReader.block_reads _ _ _ hbody).block_lossless hsits
    rw [Reader.get_bind] at hend
    cases hpeek : c₁.peek? with
    | none =>
      rw [hpeek] at hend
      cases hend
      exact hlossless
    | some token =>
      rw [hpeek] at hend
      cases hend

/-- A file with a comment, an else-if and two broken statements, and a block that is read alone. -/
theorem read_lossless_recovered :
    (∃ src file, src.text =
        ("function f() \x7b // é\n int x = check g(a, 1); if (x) \x7b \x7d else if y \x7b ) \x7d on \x7d" : Text) ∧
      SourceFile.read src = .ok file ∧ file.diagnostics.length = 2 ∧ file.functions.length = 1 ∧
      ∀ function ∈ file.functions,
        function.body.Lossless src 0 (Text.byteLength src.text)) ∧
    ∃ src block, src.text = ("{ do { } on fail error e { return e->id(); } }" : Text) ∧
      Block.read src = .ok block ∧ block.Lossless src 0 (Text.byteLength src.text) := by
  constructor
  · let src : Source :=
      ⟨"m", "function f() \x7b // é\n int x = check g(a, 1); if (x) \x7b \x7d else if y \x7b ) \x7d on \x7d"⟩
    obtain ⟨file, hread, hdiagnostics, hfunctions⟩ := Except.exists_ok (SourceFile.read src)
      (fun file => file.diagnostics.length = 2 ∧ file.functions.length = 1) (by decide +kernel)
    exact ⟨src, file, rfl, hread, hdiagnostics, hfunctions, (read_lossless src).1 file hread⟩
  · let src : Source := ⟨"m", "{ do { } on fail error e { return e->id(); } }"⟩
    obtain ⟨block, hread, -⟩ := Except.exists_ok (Block.read src) (fun _ => True) (by decide +kernel)
    exact ⟨src, block, rfl, hread, (read_lossless src).2 block hread⟩

end Flowchart
