import Flowchart.Proofs.Relayout
import Flowchart.Proofs.Safety

/-!
Reading always comes to an end. On every text the strict reader gives the answer of the reader: no
part of the text or of the tokens is taken out of range, no count goes below zero, and fewer tokens
are left after each round of a loop and before each nested reading, also where a broken statement was
passed over from its start. So the bounds of the readers are never reached, and every text is read or
rejected.
-/
namespace Flowchart

open List

variable {first : Token} {rest : List Lexeme} {stop : Mark} {bound : Nat}

namespace Strict

open Lexeme Token Reader Source

variable {α : Type} {src : Source} {c c' : Cursor}

namespace StatementReader

open Flowchart.StatementReader (Shape afterEquals)

theorem targetStop?_eq (depth : Nat) (previous : Option Mark) (lexemes : List Lexeme) :
    targetStop? depth previous lexemes =
      some (Flowchart.StatementReader.targetStop? depth previous lexemes) := by
  induction lexemes generalizing depth previous with
  | nil => rfl
  | cons lexeme rest ih =>
    unfold targetStop? Flowchart.StatementReader.targetStop?
    split
    · exact ih (depth + 1) _
    split
    · cases depth with
      | zero => rfl
      | succ depth => exact ih depth _
    split
    · rfl
    split
    · rfl
    · exact ih depth _

/-- The target of an assignment starts at the next token and ends with it or with a later one. -/
theorem target_in_range {first : Lexeme} (hc : Ready src c) (hrest : c.rest = first :: rest)
    (h : Flowchart.StatementReader.targetStop? 0 none c.rest = some stop) :
    first.token.start.index ≤ stop.index ∧ src.Marks stop := by
  have hstep {depth : Nat} (h : Flowchart.StatementReader.targetStop? depth
      (some first.token.stop) rest = some stop) :
      first.token.start.index ≤ stop.index ∧ src.Marks stop := by
    obtain ⟨more, left, rfl, hstop⟩ := Flowchart.StatementReader.targetStop?_eq_some h
    exact (hc.reaches hrest hstop).2
  rw [hrest] at h
  unfold Flowchart.StatementReader.targetStop? at h
  split at h
  · exact hstep h
  split at h
  · cases h
  split at h
  · cases h
  split at h
  · cases h
  · exact hstep h

theorem declaration?_eq (hc : Ready src c) :
    declaration? src c = some (Flowchart.StatementReader.declaration? src c) := by
  unfold declaration? Flowchart.StatementReader.declaration?
  rw [TypeText.members_eq]
  cases hrest : c.rest with
  | nil => rfl
  | cons first rest =>
    cases hscan : Flowchart.TypeText.scan (first :: rest) with
    | failed => rfl
    | found stop left =>
      obtain ⟨first', more, hlexemes, hstop, -⟩ := Flowchart.TypeText.scan_eq_found hscan
      obtain ⟨rfl, -⟩ := List.cons.inj hlexemes
      obtain ⟨-, hle, hmarks⟩ := hc.reaches (hrest.trans hlexemes) hstop
      match left with
      | [] => rfl
      | [_] => rfl
      | name :: follow :: left =>
        change (if name.token.isWord && (follow.token.is "=" || follow.token.is ";") then _
          else _) = _
        rw [slice?_of_le hle hmarks]
        dsimp only
        split <;> rfl

theorem safe_valueToSemicolon (hc : Ready src c) :
    SafeAt src c (fun _ c' => Past src c c') (valueToSemicolon src)
      (Flowchart.StatementReader.valueToSemicolon src) := by
  refine (ExprReader.safe_readUntil hc _).bind fun value c₁ hlater hpast => ?_
  refine (safe_expect hlater.ready _).bind fun semicolon c₂ hlater' _ => ?_
  exact safe_pure hlater'.ready (hpast.trans hlater')

theorem safe_initializer (hc : Ready src c) :
    SafeAt src c (fun _ _ => True) (initializer src)
      (Flowchart.StatementReader.initializer src) := by
  refine (safe_eat hc _).bind fun found c₁ hlater _ => ?_
  have hclose (init : Option Expr) {c₂ : Cursor} (hlater : Later src c c₂) :
      SafeAt src c₂ (fun _ _ => True) (lift (expect src ";") >>= fun _ => pure init)
        (expect src ";" >>= fun _ => pure init) :=
    (safe_expect hlater.ready _).ends _
  cases found with
  | false => exact hclose none hlater
  | true =>
    refine ((ExprReader.safe_readUntil hlater.ready _).map some).bind fun init c₂ hlater' _ => ?_
    exact hclose init (hlater.trans hlater')

theorem afterEquals_suffix (lexemes : List Lexeme) : afterEquals lexemes <:+ lexemes := by
  induction lexemes with
  | nil => exact suffix_refl _
  | cons lexeme rest ih =>
    unfold afterEquals
    split
    · exact suffix_cons _ _
    · exact ih.trans (suffix_cons _ _)

/-- Passing over the target of an assignment leaves the rest of the tokens in their order. -/
theorem later_afterEquals (hc : Ready src c) :
    Later src c { c with rest := afterEquals c.rest } := by
  obtain ⟨before, hbefore⟩ := afterEquals_suffix c.rest
  have hflat : flat c.rest = flat before ++ flat (afterEquals c.rest) := by
    rw [← flat_append, hbefore]
  have hsuffix : (flat (afterEquals c.rest)).Sublist (flat c.rest) := by
    rw [hflat]
    exact sublist_append_right _ _
  refine ⟨⟨hc.ordered.sublist hsuffix, hc.marks, fun token hmem => ?_⟩, le_rfl, ?_, ?_⟩
  · exact hc.after token (hsuffix.subset hmem)
  · rw [count_eq, count_eq]
    exact hsuffix.length_le
  · exact (afterEquals_suffix c.rest).length_le

theorem safe_simple (hc : Ready src c) :
    SafeAt src c (fun _ c' => Past src c c') (simple src)
      (Flowchart.StatementReader.simple src) := by
  refine SafeAt.post (p := fun _ _ => True) ?_ fun make c' h => ?_
  · refine (safe_eat hc _).bind fun isFinal next hlater _ => .view ?_
    refine .demand (declaration?_eq hlater.ready) ?_
    generalize hdeclaration : Flowchart.StatementReader.declaration? src next = declaration
    cases declaration with
    | some found =>
      obtain ⟨typed, word, htakes, -⟩ :=
        Flowchart.StatementReader.declaration?_eq_some hdeclaration
      refine (safe_set (hlater.ready.takes htakes)).bind ?_
      rintro - _ hnamed rfl
      exact (safe_initializer hnamed.ready).ends _
    | none =>
      cases isFinal with
      | true =>
        cases next.peek? with
        | some token => exact safe_failAt token _
        | none => exact safe_failAtEnd _
      | false =>
        have hexpression : SafeAt src next (fun _ _ => True)
            (valueToSemicolon src >>= fun value => pure fun extent => .expression extent value)
            (Flowchart.StatementReader.valueToSemicolon src >>= fun value =>
              pure fun extent => Statement.expression extent value) :=
          (safe_valueToSemicolon hlater.ready).ends _
        refine .demand (targetStop?_eq _ _ _) ?_
        cases hpeek : next.peek? with
        | none => exact hexpression
        | some first =>
          cases hstop : Flowchart.StatementReader.targetStop? 0 none next.rest with
          | none => exact hexpression
          | some stop =>
            obtain ⟨comments, hrest⟩ := Cursor.rest_of_peek? hpeek
            obtain ⟨hle, hmarks⟩ := target_in_range hlater.ready hrest hstop
            refine .demand (slice?_of_le hle hmarks) ?_
            refine (safe_set (later_afterEquals hlater.ready)).bind ?_
            rintro - _ hpassed rfl
            exact (safe_valueToSemicolon hpassed.ready).ends _
  · obtain ⟨taken, htakes, hsimple⟩ := Flowchart.StatementReader.simple_eq_ok h
    have htwo := hsimple.two_le_length
    obtain ⟨first, more, rfl⟩ := exists_cons_of_length_pos (by omega : 0 < taken.length)
    exact hc.takesPast htakes

section

variable {c₀ : Cursor} {block : Checked Block} {block' : Reader Block}

/-- Past a cursor the strict reader reads blocks as the reader does. -/
def SafePast (src : Source) (c₀ : Cursor) (block : Checked Block) (block' : Reader Block) : Prop :=
  ∀ c, Past src c₀ c → SafeAt src c (fun _ c' => Past src c c') block block'

theorem safe_handler (hblock : SafePast src c₀ block block')
    (hc : Past src c₀ c) :
    SafeAt src c (fun _ _ => True) (handler src block)
      (Flowchart.StatementReader.handler src block') := by
  have hbody (binding : Option (Text × Text)) {c₁ : Cursor} (hlater : Later src c c₁) :
      SafeAt src c₁ (fun _ _ => True)
        (block >>= fun body => pure (.onFail binding body))
        (block' >>= fun body => pure (Handler.onFail binding body)) :=
    (hblock c₁ (hc.trans hlater)).ends _
  refine .view ?_
  split
  · refine (safe_advance hc.ready).bind fun _ c₁ hfirst _ => ?_
    refine (safe_advance hfirst.ready).bind fun _ c₂ hsecond _ => .view ?_
    split
    · exact hbody none (hfirst.trans hsecond)
    · refine (TypeText.safe_read hsecond.ready).bind fun typeName c₃ hthird _ => ?_
      refine (safe_expectWord hthird.ready).bind fun name c₄ hfourth _ => ?_
      exact hbody _ (((hfirst.trans hsecond).trans hthird).trans hfourth)
  · exact safe_pure hc.ready trivial

theorem safe_conditional (hblock : SafePast src c₀ block block') {token : Token}
    (hc : Past src c₀ c) (hpeek : c.peek? = some token) (hbound : c.rest.length ≤ bound) :
    SafeAt src c (fun _ c' => Past src c c') (conditional src block)
      (Flowchart.StatementReader.conditional src block' bound) := by
  induction bound generalizing c token with
  | zero =>
    obtain ⟨comments, hrest⟩ := Cursor.rest_of_peek? hpeek
    rw [hrest] at hbound
    cases hbound
  | succ bound ih =>
    refine SafeAt.congr ?_ (by rw [conditional])
    refine (safe_expect hc.ready _).bind fun keyword c₁ hlater₁ hread => ?_
    refine SafeAt.after ?_ hread.toPast
    refine (ExprReader.safe_readUntil hlater₁.ready _).bind fun condition c₂ hlater₂ _ => ?_
    refine (hblock c₂ (hc.trans (hlater₁.trans hlater₂))).bind fun body c₃ hlater₃ _ => ?_
    refine (safe_eat hlater₃.ready _).bind fun found c₄ hlater₄ _ => ?_
    have hpast : Past src c c₄ := hread.toPast.trans ((hlater₂.trans hlater₃).trans hlater₄)
    have helse : SafeAt src c₄ (fun _ _ => True)
        (block >>= fun otherwise => pure (condition, body, .block otherwise))
        (block' >>= fun otherwise => pure (condition, body, Otherwise.block otherwise)) :=
      (hblock c₄ (hc.trans hpast.toLater)).ends _
    cases found with
    | false => exact safe_pure hpast.ready trivial
    | true =>
      refine .view ?_
      cases hnext : c₄.peek? with
      | none => exact helse
      | some token =>
        refine .ite (fun _ => ?_) fun _ => helse
        have hshorter := hpast.shorter
        refine SafeAt.bind ((ih (hc.trans hpast.toLater) hnext (by omega)).congr
          (if_pos hpast.fewer)) ?_
        rintro ⟨inner, innerBody, otherwise⟩ c₅ hlater₅ hinner
        refine .view (.demand (extent?_of_le (hinner.first token hnext) hlater₅.ready.marks) ?_)
        exact safe_pure hlater₅.ready trivial

/-- A block and the handler after it end a statement. -/
theorem safe_guarded (hblock : SafePast src c₀ block block') (hc : Past src c₀ c)
    (make : Block → Handler → Shape) :
    SafeAt src c (fun _ _ => True)
      (block >>= fun body => handler src block >>= fun handler => pure (make body handler))
      (block' >>= fun body => Flowchart.StatementReader.handler src block' >>= fun handler =>
        pure (make body handler)) := by
  refine (hblock c hc).bind fun body c₁ hlater _ => ?_
  exact (safe_handler hblock (hc.trans hlater)).ends _

theorem safe_shape (hblock : SafePast src c₀ block block') (hc : Past src c₀ c)
    (hpeek : c.peek? = some first) :
    SafeAt src c (fun _ c' => Past src c c') (shape src block first)
      (Flowchart.StatementReader.shape src block' first) := by
  -- Every kind of statement but the last two passes its first word before anything else is read.
  have hword {x : Checked Shape} {y : Reader Shape} (h : ∀ c₁, Past src c c₁ →
      SafeAt src c₁ (fun _ _ => True) x y) : SafeAt src c (fun _ c' => Past src c c')
        (lift advance >>= fun _ => x) (advance >>= fun _ => y) :=
    (safe_advance hc.ready).bind fun _ c₁ _ hpast =>
      (h c₁ (hpast first hpeek)).after (hpast first hpeek)
  refine .ite (fun _ => ?_) fun _ => ?_
  · refine hword fun c₁ hpast => ?_
    refine (safe_eat hpast.ready _).bind fun found c₂ hlater _ => ?_
    cases found with
    | true => exact safe_pure hlater.ready trivial
    | false => exact (safe_valueToSemicolon hlater.ready).ends _
  refine .ite (fun _ => ?_) fun _ => ?_
  · refine SafeAt.look ((safe_conditional hblock hc hpeek le_rfl).bind ?_)
    rintro ⟨condition, body, otherwise⟩ c₁ hlater hpast
    exact safe_pure hlater.ready hpast
  refine .ite (fun _ => ?_) fun _ => ?_
  · refine hword fun c₁ hpast => ?_
    refine (ExprReader.safe_readUntil hpast.ready _).bind fun condition c₂ hlater _ => ?_
    exact safe_guarded hblock (hc.trans (hpast.toLater.trans hlater)) _
  refine .ite (fun _ => ?_) fun _ => ?_
  · refine hword fun c₁ hpast => ?_
    refine (TypeText.safe_read hpast.ready).bind fun typeName c₂ hlater₂ _ => ?_
    refine (safe_expectWord hlater₂.ready).bind fun name c₃ hlater₃ _ => ?_
    refine (safe_expect hlater₃.ready _).bind fun _ c₄ hlater₄ _ => ?_
    refine (ExprReader.safe_readUntil hlater₄.ready _).bind fun collection c₅ hlater₅ _ => ?_
    refine safe_guarded hblock (hc.trans (hpast.toLater.trans ?_)) _
    exact ((hlater₂.trans hlater₃).trans hlater₄).trans hlater₅
  refine .ite (fun _ => ?_) fun _ => ?_
  · exact hword fun c₁ hpast => safe_guarded hblock (hc.trans hpast.toLater) _
  refine .ite (fun _ => ?_) fun _ => ?_
  · exact hword fun c₁ hpast => safe_guarded hblock (hc.trans hpast.toLater) _
  refine .ite (fun _ => ?_) fun _ => ?_
  · exact hword fun c₁ hpast => (safe_expect hpast.ready _).ends _
  refine .ite (fun _ => ?_) fun _ => ?_
  · exact hword fun c₁ hpast => (safe_expect hpast.ready _).ends _
  refine .view (.ite (fun _ => ?_) fun _ => safe_simple hc.ready)
  exact hword fun c₁ hpast => (safe_valueToSemicolon hpast.ready).ends _

theorem safe_statement (hblock : SafePast src c₀ block block') (hc : Past src c₀ c)
    (hpeek : c.peek? = some first) :
    SafeAt src c (fun _ c' => Past src c c') (statement src block first)
      (Flowchart.StatementReader.statement src block' first) := by
  refine (safe_shape hblock hc hpeek).bind fun make c₁ hlater hpast => .view ?_
  refine .demand (extent?_of_le (hpast.first first hpeek) hlater.ready.marks) ?_
  exact safe_pure hlater.ready hpast

end

/-- A run of comments starts at the first of them and ends before the next token. -/
theorem comment_in_range {first : Token} {more : List Token} {comment : Statement}
    (hc : Ready src c) (hfirst : flat c.rest = first :: more)
    (h : Flowchart.StatementReader.comment? src c = .ok (some comment) c') :
    first.start.index ≤ c'.last.index ∧ src.Marks c'.last := by
  obtain ⟨first', run, lines, hsteps, -⟩ := Flowchart.StatementReader.comment?_steps h
  obtain ⟨rfl, -⟩ := List.cons.inj (hfirst.symm.trans hsteps.rest)
  obtain ⟨hready, -, hstarts⟩ := hc.passes hsteps
  exact ⟨hstarts first mem_cons_self, hready.marks⟩

/-- After a comment fewer tokens are left. Without one the cursor stays before a token that has no
comments. -/
def AfterComment (c : Cursor) : Option Statement → Cursor → Prop
  | some _, c' => Lexeme.count c'.rest < Lexeme.count c.rest
  | none, c' => c' = c ∧ ∀ token, c.peek? = some token → ∃ rest, c.rest = ⟨[], token⟩ :: rest

theorem safe_comment? (hc : Ready src c) :
    SafeAt src c (AfterComment c) (comment? src) (Flowchart.StatementReader.comment? src) := by
  constructor
  · match hrest : c.rest with
    | [] => rw [comment?, Flowchart.StatementReader.comment?, hrest]
    | ⟨[], next⟩ :: rest => rw [comment?, Flowchart.StatementReader.comment?, hrest]
    | ⟨first :: comments, next⟩ :: rest =>
      have hflat : flat c.rest = first :: (comments ++ next :: flat rest) := by
        rw [hrest]
        rfl
      have hrange := @comment_in_range src c _ first _ _ hc hflat
        (by rw [Flowchart.StatementReader.comment?, hrest])
      rw [comment?, Flowchart.StatementReader.comment?, hrest]
      change (extent? src first.start _).bind _ = _
      rw [extent?_of_le hrange.1 hrange.2]
      rfl
  · intro found c' h
    cases found with
    | some comment =>
      obtain ⟨hprogress, hfewer⟩ := Flowchart.StatementReader.comment?_progress h
      obtain ⟨first, run, lines, hsteps, -⟩ := Flowchart.StatementReader.comment?_steps h
      exact ⟨hc.later hsteps hprogress.length, hfewer⟩
    | none =>
      unfold Flowchart.StatementReader.comment? at h
      split at h
      · cases h
      · next hplain =>
        cases h
        refine ⟨.refl hc, rfl, fun token hpeek => ?_⟩
        obtain ⟨comments, hrest⟩ := Cursor.rest_of_peek? hpeek
        cases comments with
        | nil => exact ⟨_, hrest⟩
        | cons first comments => exact absurd hrest (hplain _ _ _ _)

theorem skipBroken_eq (depth : Nat) (last : Mark) (lexemes : List Lexeme) :
    skipBroken depth last lexemes =
      some (Flowchart.StatementReader.skipBroken depth last lexemes) := by
  induction lexemes generalizing depth last with
  | nil => rfl
  | cons lexeme rest ih =>
    unfold skipBroken Flowchart.StatementReader.skipBroken
    dsimp only
    split
    · rcases depth with - | - | depth
      · rfl
      · rfl
      · exact ih (depth + 1) _
    split
    · exact ih (depth + 1) _
    split
    · rfl
    · exact ih depth _

theorem skipBroken_length (depth : Nat) (last : Mark) (lexemes : List Lexeme) :
    (Flowchart.StatementReader.skipBroken depth last lexemes).2.length ≤ lexemes.length := by
  induction lexemes generalizing depth last with
  | nil => exact le_rfl
  | cons lexeme rest ih =>
    have hstep (depth : Nat) := (ih depth lexeme.token.stop).trans (Nat.le_succ rest.length)
    unfold Flowchart.StatementReader.skipBroken
    dsimp only
    split
    · rcases depth with - | - | depth
      · exact le_rfl
      · exact Nat.le_succ _
      · exact hstep (depth + 1)
    split
    · exact hstep (depth + 1)
    split
    · exact Nat.le_succ _
    · exact hstep depth

theorem skipBroken_shorter {lexeme : Lexeme} (hlexeme : lexeme.token.is "\x7d" = false)
    (last : Mark) (rest : List Lexeme) :
    (Flowchart.StatementReader.skipBroken 0 last (lexeme :: rest)).2.length ≤ rest.length := by
  unfold Flowchart.StatementReader.skipBroken
  dsimp only
  rw [hlexeme, if_neg Bool.false_ne_true]
  split
  · exact skipBroken_length _ _ _
  split
  · exact le_rfl
  · exact skipBroken_length _ _ _

/-- A broken statement is passed with at least its first token. -/
theorem skipBroken_past (hc : Ready src c) (hrest : c.rest = ⟨[], first⟩ :: rest)
    (hfirst : first.is "\x7d" = false)
    (hleft : c'.rest = (Flowchart.StatementReader.skipBroken 0 first.stop c.rest).2)
    (hlast : c'.last = (Flowchart.StatementReader.skipBroken 0 first.stop c.rest).1) :
    Past src c c' := by
  obtain ⟨more, hsteps⟩ :=
    Flowchart.StatementReader.skipBroken_steps hrest hfirst rfl hleft hlast
  refine hc.past hsteps ?_ ?_ mem_cons_self
  · rw [hleft, hrest]
    exact Nat.lt_succ_of_le (skipBroken_shorter hfirst _ _)
  · rw [Cursor.peek?, hrest]
    rfl

variable {read : Token → Checked Statement} {read' : Token → Reader Statement}

/-- A statement that cannot be read is passed over from its start, and still its first token is
passed. -/
theorem safe_recovering (hc : Ready src c) (hrest : c.rest = ⟨[], first⟩ :: rest)
    (hfirst : first.is "\x7d" = false)
    (hread : SafeAt src c (fun _ c' => Past src c c') (read first) (read' first)) :
    SafeAt src c (fun _ c' => Past src c c') (recovering src read first)
      (Flowchart.StatementReader.recovering src read' first) := by
  have hpeek : c.peek? = some first := by
    rw [Cursor.peek?, hrest]
    rfl
  have hpast (log : List Diagnostic) : Past src c
      { rest := (Flowchart.StatementReader.skipBroken 0 first.stop c.rest).2
        last := (Flowchart.StatementReader.skipBroken 0 first.stop c.rest).1
        log := log } :=
    skipBroken_past hc hrest hfirst rfl rfl
  constructor
  · unfold recovering Flowchart.StatementReader.recovering
    rw [hread.same]
    cases read' first c with
    | ok statement after => rfl
    | error error failed =>
      change (skipBroken 0 first.stop c.rest).bind _ = _
      rw [skipBroken_eq]
      have hextent := extent?_of_le ((hpast []).first first hpeek) (hpast []).ready.marks
      change (extent? src first.start _).bind _ = _
      rw [hextent]
      rfl
  · intro statement c' h
    unfold Flowchart.StatementReader.recovering at h
    split at h
    · next hok =>
      cases h
      exact hread.later _ _ hok
    · cases h
      exact ⟨(hpast _).toLater, hpast _⟩

/-- Each round of the loop over the statements of a block passes a token or a comment. -/
theorem safe_statements {c₀ : Cursor} {opening : Token}
    (hread : ∀ c first, Past src c₀ c → c.peek? = some first → SafeAt src c (fun _ c' => Past src c
      c') (read first) (read' first)) (hc : Past src c₀ c) (hbound : Lexeme.count c.rest < bound) :
    SafeAt src c (fun _ _ => True) (statements src read opening)
      (Flowchart.StatementReader.statements src read' opening bound) := by
  induction bound generalizing c with
  | zero => exact absurd hbound (Nat.not_lt_zero _)
  | succ bound ih =>
    refine SafeAt.congr ?_ (by rw [statements])
    have hmore (statement : Statement) {c₁ : Cursor} (hlater : Later src c c₁)
        (hfewer : Lexeme.count c₁.rest < Lexeme.count c.rest) :
        SafeAt src c₁ (fun _ _ => True)
          ((fun next => if Lexeme.count next.rest < Lexeme.count c.rest then
            statements src read opening next else none : Checked (List Statement)) >>=
            fun more => pure (statement :: more))
          (Flowchart.StatementReader.statements src read' opening bound >>= fun more =>
            pure (statement :: more)) := by
      refine SafeAt.bind ((ih (hc.trans hlater) (by omega)).congr (if_pos hfewer)) ?_
      exact fun more c₂ hlater' _ => safe_pure hlater'.ready trivial
    refine (safe_comment? hc.ready).bind fun found c₁ hlater hafter => ?_
    cases found with
    | some comment => exact hmore comment hlater hafter
    | none =>
      obtain ⟨rfl, hplain⟩ := hafter
      refine .view ?_
      cases hpeek : c₁.peek? with
      | none => exact safe_failAt opening _
      | some token =>
        refine .ite (fun _ => safe_pure hlater.ready trivial) fun hfirst => ?_
        obtain ⟨rest, hrest⟩ := hplain token hpeek
        refine (safe_recovering hlater.ready hrest (Bool.eq_false_iff.mpr hfirst)
          (hread _ token hc hpeek)).bind fun statement c₂ hlater' hpast => ?_
        exact hmore statement hlater' hpast.fewer

/-- Nested blocks are read with fewer tokens left than the block around them. -/
theorem safe_block {depth : Nat} (hc : Ready src c) (hdepth : c.rest.length < depth) :
    SafeAt src c (fun _ c' => Past src c c') (block src)
      (Flowchart.StatementReader.block src depth) := by
  induction depth generalizing c with
  | zero => exact absurd hdepth (Nat.not_lt_zero _)
  | succ depth ih =>
    refine SafeAt.congr ?_ (by rw [block])
    have hnested : SafePast src c
        (fun next => if Lexeme.count next.rest < Lexeme.count c.rest then block src next else none)
        (Flowchart.StatementReader.block src depth) := fun next hpast => .again hpast hdepth ih
    refine (safe_expect hc _).bind fun opening c₁ hlater₁ hopening => ?_
    refine SafeAt.look (SafeAt.bind (safe_statements (fun next first hpast hpeek =>
      safe_statement hnested hpast hpeek) hopening.toPast (Nat.lt_succ_self _)) ?_)
    intro body c₂ hlater₂ _
    refine (safe_expect hlater₂.ready _).bind fun closing c₃ hlater₃ hclosing => ?_
    have hpast : Past src c c₃ := hopening.toPast.trans (hlater₂.trans hlater₃)
    refine .demand (extent?_of_le ?_ ?_) (safe_pure hlater₃.ready hpast)
    · rw [← hclosing.stop]
      exact hpast.first opening hopening.peek
    · rw [← hclosing.stop]
      exact hlater₃.ready.marks

end StatementReader

namespace FileReader

/-- A dotted name ends at or after the end of its first part. -/
theorem safe_dottedTail (hc : Ready src c) (hstop : c.last = stop) (hbound : c.rest.length < bound) :
    SafeAt src c (fun found _ => stop.index ≤ found.index ∧ src.Marks found) (dottedTail src stop)
      (Flowchart.FileReader.dottedTail src stop bound) := by
  induction bound generalizing c stop with
  | zero => exact absurd hbound (Nat.not_lt_zero _)
  | succ bound ih =>
    refine SafeAt.congr ?_ (by rw [dottedTail])
    refine (safe_eat hc _).bind fun found c₁ hlater₁ heaten => ?_
    cases found with
    | false =>
      obtain rfl : c₁ = c := heaten
      exact safe_pure hc ⟨le_rfl, hstop ▸ hc.marks⟩
    | true =>
      have hpoint : Past src c c₁ := heaten
      refine (safe_expectWord hlater₁.ready).bind fun part c₂ hlater₂ hread => ?_
      have hpast : Past src c c₂ := hpoint.trans hlater₂
      refine (SafeAt.again hpast hbound fun hc => ih hc hread.stop).mono ?_
      rintro last c₃ - ⟨hle, hmarks⟩
      refine ⟨?_, hmarks⟩
      rw [← hread.stop] at hle
      exact (hstop ▸ hpast.last).trans hle

theorem safe_importDecl (hc : Ready src c) :
    SafeAt src c (fun _ c' => Past src c c') (importDecl src)
      (Flowchart.FileReader.importDecl src) := by
  refine (safe_expect hc _).bind fun keyword c₁ hlater₁ hkeyword => ?_
  refine SafeAt.after ?_ hkeyword.toPast
  refine (safe_expectWord hlater₁.ready).bind fun org c₂ hlater₂ _ => ?_
  refine (safe_expect hlater₂.ready _).bind fun _ c₃ hlater₃ _ => ?_
  refine (safe_expectWord hlater₃.ready).bind fun first c₄ hlater₄ hfirst => ?_
  refine SafeAt.look ((safe_dottedTail hlater₄.ready hfirst.stop (Nat.lt_succ_self _)).bind ?_)
  rintro stop c₅ hlater₅ ⟨hle, hmarks⟩
  refine (safe_expect hlater₅.ready _).bind fun semicolon c₆ hlater₆ _ => ?_
  have hstart := hfirst.first first hfirst.peek
  rw [hfirst.stop] at hstart
  refine .demand (slice?_of_le (hstart.trans hle) hmarks) ?_
  exact safe_pure hlater₆.ready trivial

theorem safe_params (hc : Ready src c) (hbound : c.rest.length < bound) :
    SafeAt src c (fun _ _ => True) (params src) (Flowchart.FileReader.params src bound) := by
  induction bound generalizing c with
  | zero => exact absurd hbound (Nat.not_lt_zero _)
  | succ bound ih =>
    refine SafeAt.congr (.view ?_) (by rw [params])
    refine (TypeText.safe_read hc).bind fun typeName c₁ hlater₁ htype => ?_
    refine (safe_expectWord hlater₁.ready).bind fun name c₂ hlater₂ _ => ?_
    refine (safe_eat hlater₂.ready _).bind fun found c₃ hlater₃ _ => ?_
    cases found with
    | false => exact safe_pure hlater₃.ready trivial
    | true =>
      have hpast : Past src c c₃ := htype.trans (hlater₂.trans hlater₃)
      exact (SafeAt.again hpast hbound ih).ends _

theorem safe_parameters (hc : Ready src c) :
    SafeAt src c (fun _ _ => True) (parameters src) (Flowchart.FileReader.parameters src) := by
  refine .view (.ite (fun _ => safe_pure hc trivial) fun _ => ?_)
  exact SafeAt.look (safe_params hc (Nat.lt_succ_self _))

theorem safe_returned (hc : Ready src c) :
    SafeAt src c (fun _ _ => True) (returned src) (Flowchart.FileReader.returned src) := by
  refine (safe_eat hc _).bind fun found c₁ hlater _ => ?_
  exact .ite (fun _ => (TypeText.safe_read hlater.ready).map some)
    fun _ => safe_pure hlater.ready trivial

theorem safe_functionDef (hc : Ready src c) :
    SafeAt src c (fun _ c' => Past src c c') (functionDef src)
      (Flowchart.FileReader.functionDef src) := by
  rw [Flowchart.FileReader.functionDef_eq]
  refine (safe_expect hc _).bind fun keyword c₁ hlater₁ hkeyword => ?_
  refine SafeAt.after ?_ hkeyword.toPast
  refine (safe_expectWord hlater₁.ready).bind fun name c₂ hlater₂ _ => ?_
  refine (safe_expect hlater₂.ready _).bind fun _ c₃ hlater₃ _ => ?_
  refine (safe_parameters hlater₃.ready).bind fun params c₄ hlater₄ _ => ?_
  refine (safe_expect hlater₄.ready _).bind fun _ c₅ hlater₅ _ => ?_
  refine (safe_returned hlater₅.ready).bind fun returnType c₆ hlater₆ _ => ?_
  have hpast : Past src c c₆ := hkeyword.toPast.trans
    ((((hlater₂.trans hlater₃).trans hlater₄).trans hlater₅).trans hlater₆)
  refine .view (.demand (extent?_of_le (hpast.first keyword hkeyword.peek) hpast.ready.marks) ?_)
  refine SafeAt.look ((StatementReader.safe_block hpast.ready (Nat.lt_succ_self _)).bind ?_)
  exact fun body c₇ hlater₇ _ => .view (safe_pure hlater₇.ready trivial)

/-- Each round of the loop over the declarations passes a token. -/
theorem safe_declarations (hc : Ready src c) (hbound : c.rest.length < bound) :
    SafeAt src c (fun _ _ => True) (declarations src)
      (Flowchart.FileReader.declarations src bound) := by
  induction bound generalizing c with
  | zero => exact absurd hbound (Nat.not_lt_zero _)
  | succ bound ih =>
    refine SafeAt.congr ?_ (by rw [declarations])
    have hagain {c₁ : Cursor} (hpast : Past src c c₁) : SafeAt src c₁ (fun _ _ => True)
        (fun next => if Lexeme.count next.rest < Lexeme.count c.rest then declarations src next
          else none)
        (Flowchart.FileReader.declarations src bound) :=
      .again hpast hbound ih
    refine .view ?_
    cases hpeek : c.peek? with
    | none => exact safe_pure hc trivial
    | some token =>
      refine .ite (fun _ => ?_) fun _ => .ite (fun _ => ?_) fun _ => .ite (fun _ => ?_) fun _ => ?_
      · exact (safe_importDecl hc).bind fun first c₁ _ hpast => (hagain hpast).ends _
      · exact (safe_advance hc).bind fun _ c₁ _ hpast => hagain (hpast token hpeek)
      · exact (safe_functionDef hc).bind fun first c₁ _ hpast => (hagain hpast).ends _
      · exact safe_failAt token _

theorem safe_wholeBlock (hc : Ready src c) :
    SafeAt src c (fun _ _ => True) (wholeBlock src) (Flowchart.FileReader.wholeBlock src) := by
  refine SafeAt.look ((StatementReader.safe_block hc (Nat.lt_succ_self _)).bind ?_)
  intro block c₁ hlater _
  refine .view ?_
  cases c₁.peek? with
  | none => exact safe_pure hlater.ready trivial
  | some token => exact safe_failAt token _

theorem ready_of_sits (h : Flowchart.StatementReader.Sits src c) : Ready src c := by
  obtain ⟨trailing, hlays⟩ := h.laid
  obtain ⟨hordered, hwithin⟩ := hlays.ordered
  exact ⟨hordered.sublist (sublist_append_left _ _), h.marks,
    fun token hmem => (hwithin token (mem_append_left _ hmem)).1⟩

/-- The tokens of a text stand in it in their order. -/
theorem run_eq {x : Checked α} {y : Reader α} {p : α → Cursor → Prop}
    (h : ∀ c, Ready src c → SafeAt src c p x y) :
    run src x = some (Flowchart.FileReader.run src y) := by
  have hscan : scanFrom {} src.text = some (Token.scan src.text) := scanFrom_eq le_rfl
  unfold run
  rw [hscan]
  cases htokens : Token.scan src.text with
  | error error =>
    unfold Flowchart.FileReader.run
    rw [htokens]
    rfl
  | ok tokens =>
    have hsafe := (h _ (ready_of_sits (Flowchart.FileReader.sits_of_scan htokens))).same
    rw [Flowchart.FileReader.run_of_scan htokens]
    change (x { rest := Lexeme.ofTokens [] tokens }).bind _ = _
    rw [hsafe]
    cases y { rest := Lexeme.ofTokens [] tokens } <;> rfl

end FileReader

/-- A part of the text that is in range stands between two byte offsets that no character is split
at. -/
theorem slice?_between {start : Mark} {text : Text} (h : slice? src start stop = some text) :
    Text.Between src.text (src.offset start) (src.offset stop) text := by
  unfold slice? part? at h
  split at h
  · next hrange =>
    cases h
    have hpieces : src.text.take start.index ++ (src.text.take stop.index).drop start.index =
        src.text.take stop.index := by
      have hsplit := take_append_drop start.index (src.text.take stop.index)
      rwa [take_take, Nat.min_eq_left hrange.1] at hsplit
    refine ⟨src.text.take start.index, src.text.drop stop.index, ?_, rfl, ?_⟩
    · rw [← append_assoc, hpieces, take_append_drop]
    · rw [hpieces]
      rfl
  · cases h

end Strict

/-- Reading is total. The strict reader ends on every text with the answer of the reader, so it
never stops on the way; and no character is split by what it takes of the text. -/
theorem read_total (src : Source) :
    Strict.readFile src = some (SourceFile.read src) ∧
    Strict.readBlock src = some (Block.read src) ∧
    ∀ start stop text, Strict.slice? src start stop = some text →
      Text.Between src.text (src.offset start) (src.offset stop) text := by
  refine ⟨?_, ?_, fun start stop text => Strict.slice?_between⟩
  · have hrun : Strict.FileReader.run src (Strict.FileReader.declarations src) =
        some (FileReader.run src fun cursor =>
          FileReader.declarations src (cursor.rest.length + 1) cursor) :=
      Strict.FileReader.run_eq fun c hc =>
        Strict.SafeAt.look (g := fun cursor => FileReader.declarations src (cursor.rest.length + 1))
          (Strict.FileReader.safe_declarations hc (Nat.lt_succ_self _))
    unfold Strict.readFile
    rw [hrun]
    rfl
  · unfold Strict.readBlock
    rw [Strict.FileReader.run_eq fun c hc => Strict.FileReader.safe_wholeBlock hc]
    unfold Block.read
    cases FileReader.run src (FileReader.wholeBlock src) <;> rfl

/-- Two statements are broken, one of them in a block of the other, so that the reader goes back over
a block that it has read; still the file is read to its end. The string before them takes a byte more
than it has characters. -/
theorem read_total_recovered :
    ∃ (src : Source) (tree : SourceFile) (start stop : Mark) (text : Text),
      Strict.readFile src = some (.ok tree) ∧ tree.diagnostics.length = 2 ∧
      tree.functions.length = 1 ∧ Strict.slice? src start stop = some text ∧ stop.index = 22 ∧
      Text.Between src.text 18 23 text := by
  let src : Source := ⟨"m", "function f() \x7b s=\"é\"; if x \x7b ) ; \x7d else 5; \x7d"⟩
  let start : Mark := ({} : Mark).after (src.text.take 18)
  let stop : Mark := ({} : Mark).after (src.text.take 22)
  obtain ⟨tree, htree, hdiagnostics, hfunctions⟩ := Except.exists_ok (SourceFile.read src)
    (fun tree => tree.diagnostics.length = 2 ∧ tree.functions.length = 1) (by decide +kernel)
  have hslice : Strict.slice? src start stop = some (src.slice start stop) := by decide +kernel
  obtain ⟨hread, -, hbetween⟩ := read_total src
  have hpiece := hbetween start stop _ hslice
  rw [htree] at hread
  exact ⟨src, tree, start, stop, _, hread, hdiagnostics, hfunctions, hslice, by decide, hpiece⟩

end Flowchart
