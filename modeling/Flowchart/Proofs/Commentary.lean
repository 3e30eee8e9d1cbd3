import Flowchart.Proofs.Rebinding
import Flowchart.Proofs.Survival

/-!
Comments that are rendered and read again. The lines of a comment are joined with line feeds, and a
text that ends in a line feed has no line after it. So a comment keeps all of its lines but an empty
last one, and a comment whose lines are all empty has nothing to be rendered.
-/
namespace Flowchart

open List Token StatementReader Text Render SourceFile

variable {src : Source} {lines : List Text} {mark : Mark} {line text : Text}

namespace Text

theorem cutLines_of_no_feed (h : '\n' ∉ line) : cutLines line = ([], line) := by
  induction line with
  | nil => rfl
  | cons c line ih =>
    obtain ⟨hc, hline⟩ := not_or.mp (mt mem_cons.mpr h)
    rw [cutLines_cons (Ne.symm hc), ih hline]

theorem cutLines_append (h : '\n' ∉ line) (rest : Text) :
    cutLines (line ++ '\n' :: rest) = (line :: (cutLines rest).1, (cutLines rest).2) := by
  induction line with
  | nil => exact cutLines_feed rest
  | cons c line ih =>
    obtain ⟨hc, hline⟩ := not_or.mp (mt mem_cons.mpr h)
    rw [cons_append, cutLines_cons (Ne.symm hc), ih hline]

/-- Joined lines are cut apart again; the last one is not finished. -/
theorem cutLines_intercalate {last : Text} (h : ∀ line ∈ lines, '\n' ∉ line) (hlast : '\n' ∉ last) :
    cutLines (intercalate "\n" (lines ++ [last])) = (lines, last) := by
  induction lines with
  | nil =>
    rw [nil_append, intercalate_feed, flatMap_nil, append_nil]
    exact cutLines_of_no_feed hlast
  | cons line lines ih =>
    obtain ⟨hline, hrest⟩ := forall_mem_cons.mp h
    have hjoin : intercalate "\n" (line :: lines ++ [last]) =
        line ++ '\n' :: intercalate "\n" (lines ++ [last]) := by
      cases lines <;> simp
    rw [hjoin, cutLines_append hline, ih hrest]

/-- A line as it is left when the blanks around it are dropped. -/
structure Stripped (line : Text) : Prop where
  feed : '\n' ∉ line
  trimmed : trim line = line

theorem Stripped.dropReturn_eq (h : Stripped line) : dropReturn line = line := by
  have hreturn : line.getLast? ≠ some '\r' := by
    intro hlast
    have hends := (Call.ends_of_trim h.trimmed).2
    rw [hlast] at hends
    cases hends
  unfold dropReturn stripEnd?
  rw [if_neg hreturn]
  rfl

/-- The lines of a comment without an empty last one. -/
def settled (lines : List Text) : List Text :=
  if lines.getLast? = some [] then lines.dropLast else lines

theorem settled_subset (lines : List Text) : settled lines ⊆ lines := by
  unfold settled
  split
  · exact (dropLast_sublist lines).subset
  · exact Subset.refl lines

theorem lines_intercalate (h : ∀ line ∈ lines, Stripped line) :
    Text.lines (intercalate "\n" lines) = settled lines := by
  rcases eq_nil_or_concat lines with rfl | ⟨front, last, rfl⟩
  · rfl
  rw [concat_eq_append] at h ⊢
  obtain ⟨hfront, hlast⟩ := forall_mem_append.mp h
  have hlast := forall_mem_singleton.mp hlast
  have hreturn : front.map dropReturn = front :=
    (map_congr_left fun line hmem => (hfront line hmem).dropReturn_eq).trans (map_id _)
  unfold Text.lines settled
  rw [cutLines_intercalate (fun line hmem => (hfront line hmem).feed) hlast.feed]
  cases last <;> simp [hreturn]

theorem trim_eq_nil_iff : trim text = [] ↔ ∀ c ∈ text, isBlank c := by
  unfold trim trimEnd trimStart
  rw [reverse_eq_nil_iff, dropWhile_eq_nil_iff]
  constructor
  · intro h c hc
    rw [← takeWhile_append_dropWhile (l := text)] at hc
    rcases mem_append.mp hc with hc | hc
    · exact mem_takeWhile_imp hc
    · exact h c (mem_reverse.mpr hc)
  · exact fun h c hc => h c ((dropWhile_sublist _).subset (mem_reverse.mp hc))

/-- Joined lines are blank only if every line is empty. -/
theorem trim_intercalate_eq_nil (h : ∀ line ∈ lines, Stripped line) :
    trim (intercalate "\n" lines) = [] ↔ ∀ line ∈ lines, line = [] := by
  have hmem (c : Char) (line : Text) (hline : line ∈ lines) (hc : c ∈ line) :
      c ∈ intercalate "\n" lines := by
    cases lines with
    | nil => cases hline
    | cons first more =>
      rw [intercalate_feed]
      rcases mem_cons.mp hline with rfl | hline
      · exact mem_append_left _ hc
      · exact mem_append_right _ (mem_flatMap.mpr ⟨line, hline, mem_cons_of_mem _ hc⟩)
  constructor
  · intro hall line hline
    rw [← (h line hline).trimmed]
    exact trim_eq_nil_iff.mpr fun c hc => trim_eq_nil_iff.mp hall c (hmem c line hline hc)
  · intro hall
    obtain ⟨n, rfl⟩ : ∃ n, lines = replicate n [] := ⟨_, eq_replicate_of_mem hall⟩
    refine trim_eq_nil_iff.mpr fun c hc => ?_
    cases n with
    | zero => cases hc
    | succ n =>
      rw [replicate_succ, intercalate_feed] at hc
      obtain ⟨line, hline, hc⟩ := mem_flatMap.mp hc
      rw [eq_of_mem_replicate hline, mem_singleton] at hc
      rw [hc]
      rfl

end Text

namespace Token

theorem take?_comment_no_feed {c : Char} {rest after : Text}
    (h : take? c rest = some (.comment, text, after)) : '\n' ∉ text := by
  unfold take? at h
  split at h
  · injection h with h
    injection h with _ h
    exact (takeComment_ends h).1
  · repeat' split at h
    all_goals first
      | cases h
      | (obtain ⟨_, -, hpair⟩ := Option.map_eq_some_iff.mp h; cases hpair)

theorem Cuts.comment_no_feed {tokens : List Token} (h : Cuts mark text tokens) :
    ∀ token ∈ tokens, token.isComment → '\n' ∉ token.text := by
  induction h with
  | done => exact nofun
  | @token mark gap rest text after c cls tokens _ _ htake _ ih =>
    refine forall_mem_cons.mpr ⟨fun hcomment => ?_, ih⟩
    obtain rfl : cls = .comment := of_decide_eq_true hcomment
    exact take?_comment_no_feed htake

/-- The tokens of comments on lines of their own, one after the other from `mark` on. -/
def ofComments (mark : Mark) : List Text → List Token
  | [] => []
  | text :: more =>
    ⟨.comment, text, mark, mark.after text⟩ :: ofComments (mark.after (text ++ ['\n'])) more

theorem isComment_ofComments (mark : Mark) (texts : List Text) :
    ∀ token ∈ ofComments mark texts, token.isComment := by
  induction texts generalizing mark with
  | nil => exact nofun
  | cons text more ih => exact forall_mem_cons.mpr ⟨rfl, ih _⟩

theorem map_text_ofComments (mark : Mark) (texts : List Text) :
    (ofComments mark texts).map Token.text = texts := by
  induction texts generalizing mark with
  | nil => rfl
  | cons text more ih => exact congrArg (text :: ·) (ih _)

/-- The text of a comment: two slashes and what follows them on the line. -/
def IsComment (text : Text) : Prop := ∃ body, text = '/' :: '/' :: body ∧ '\n' ∉ body

theorem IsComment.no_feed (h : IsComment text) : '\n' ∉ text := by
  obtain ⟨body, rfl, hfeed⟩ := h
  simpa using hfeed

theorem cuts_ofComments {texts : List Text} {rest : Text} {tokens : List Token}
    (h : ∀ text ∈ texts, IsComment text)
    (hrest : Cuts (mark.after (texts.flatMap (· ++ ['\n']))) rest tokens) :
    Cuts mark (texts.flatMap (· ++ ['\n']) ++ rest) (ofComments mark texts ++ tokens) := by
  induction texts generalizing mark with
  | nil => exact hrest
  | cons text texts ih =>
    obtain ⟨⟨body, rfl, hfeed⟩, hmore⟩ := forall_mem_cons.mp h
    rw [flatMap_cons, Mark.after_append] at hrest
    have hcuts := ih hmore hrest
    rw [Mark.after_append] at hcuts
    have hline : Cuts _ (['\n'] ++ _) _ := Cuts.blank rfl hcuts
    have htoken : Cuts mark ([] ++ '/' :: '/' :: (body ++ _)) _ :=
      .token rfl (by decide) (take?_comment hfeed rfl) hline
    rw [flatMap_cons, append_assoc, append_assoc]
    rw [ofComments, Mark.after_append]
    exact htoken

end Token

namespace StatementReader

theorem line_after_feed (h : '\n' ∉ text) (mark : Mark) :
    (mark.after (text ++ ['\n'])).position.line = mark.position.line + 1 := by
  change (mark.position.after (text ++ ['\n'])).line = _
  rw [Position.line_after, List.count_append, count_eq_zero_of_not_mem h]
  rfl

/-- Comments on lines that follow one another are one run. -/
theorem commentRun_ofComments {previous : Token} {texts : List Text}
    (h : ∀ text ∈ texts, '\n' ∉ text)
    (hnext : mark.position.line = previous.start.position.line + 1) :
    commentRun previous (ofComments mark texts) = (ofComments mark texts, []) := by
  induction texts generalizing mark previous with
  | nil => rfl
  | cons text texts ih =>
    obtain ⟨hfeed, hrest⟩ := forall_mem_cons.mp h
    rw [ofComments, commentRun, if_pos hnext, ih hrest (line_after_feed hfeed mark)]

theorem comment?_ofComments {c : Cursor} {token : Token} {rest : List Lexeme} {first : Text}
    {texts : List Text} (h : ∀ text ∈ first :: texts, '\n' ∉ text)
    (hrest : c.rest = ⟨ofComments mark (first :: texts), token⟩ :: rest) :
    ∃ extent stop, comment? src c =
      .ok (some (.comment extent ((first :: texts).map fun text =>
        trim (text.dropWhile (· = '/'))))) { c with rest := ⟨[], token⟩ :: rest, last := stop } := by
  obtain ⟨hfirst, hmore⟩ := forall_mem_cons.mp h
  have hrun := @commentRun_ofComments _ ⟨.comment, first, mark, mark.after first⟩ _ hmore
    (line_after_feed hfirst mark)
  have hbodies : (ofComments mark (first :: texts)).map commentBody =
      (first :: texts).map fun text => trim (text.dropWhile (· = '/')) := by
    conv_rhs => rw [← map_text_ofComments mark (first :: texts), map_map]
    rfl
  unfold comment?
  rw [hrest, ← hbodies, ofComments]
  dsimp only
  rw [hrun]
  exact ⟨_, _, rfl⟩

end StatementReader

theorem Lexeme.ofTokens_comments {comments : List Token} (pending rest : List Token)
    (h : ∀ comment ∈ comments, comment.isComment) :
    ofTokens pending (comments ++ rest) = ofTokens (pending ++ comments) rest := by
  induction comments generalizing pending with
  | nil => rw [nil_append, append_nil]
  | cons comment comments ih =>
    obtain ⟨hcomment, hmore⟩ := forall_mem_cons.mp h
    rw [cons_append, ofTokens, if_pos hcomment, ih _ hmore, append_assoc, singleton_append]

theorem intercalate_feed_append (first : Text) (texts : List Text) (rest : Text) :
    List.intercalate "\n" (first :: texts) ++ '\n' :: rest =
      (first :: texts).flatMap (· ++ ['\n']) ++ rest := by
  induction texts generalizing first with
  | nil => simp
  | cons next texts ih =>
    rw [List.intercalate_cons_cons, append_assoc, ih]
    simp

/-- Comments on lines of their own in braces are read as one comment. -/
theorem Block.read_comments (file : Text) {first : Text} {texts : List Text}
    (h : ∀ text ∈ first :: texts, IsComment text) :
    ∃ block extent,
      Block.read ⟨file, "\x7b\n" ++ List.intercalate "\n" (first :: texts) ++ "\n\x7d"⟩ = .ok block ∧
      block.statements = [.comment extent ((first :: texts).map fun text =>
        trim (text.dropWhile (· = '/')))] := by
  have htext : "\x7b\n" ++ List.intercalate "\n" (first :: texts) ++ "\n\x7d" =
      '\x7b' :: (['\n'] ++ ((first :: texts).flatMap (· ++ ['\n']) ++ ['\x7d'])) := by
    rw [← intercalate_feed_append]
    rfl
  set start := (({} : Mark).after ['\x7b']).after ['\n']
  have hend : Cuts ((start.after ((first :: texts).flatMap (· ++ ['\n']))).after ['\x7d']) [] [] :=
    .done rfl
  obtain ⟨brace, hbrace, hclosing⟩ := Call.lone_cuts (by decide) hend
  have hlexemes : Lexeme.ofTokens [] (ofComments start (first :: texts) ++ [brace]) =
      [⟨ofComments start (first :: texts), brace⟩] := by
    rw [Lexeme.ofTokens_comments _ _ (isComment_ofComments start (first :: texts)), Lexeme.ofTokens,
      if_neg (by rw [hclosing.plain]; exact Bool.false_ne_true)]
    rfl
  generalize hsrc : (⟨file, _⟩ : Source) = src
  obtain ⟨extent, stop, hcomment⟩ := @comment?_ofComments src start
    ⟨Lexeme.ofTokens [] (ofComments start (first :: texts) ++ [brace]), ({} : Mark).after "\x7b", []⟩
    brace [] first texts (fun text hmem => (h text hmem).no_feed) hlexemes
  have hclose : brace.is "\x7d" := decide_eq_true hclosing.text
  obtain ⟨block, hread, hstatements⟩ := Call.read_braced (by rw [← hsrc, htext])
    (Cuts.blank rfl (cuts_ofComments h hbrace)) (.comment hcomment (.done rfl hclose)) rfl rfl hclose
  exact ⟨block, extent, hread, hstatements⟩

/-- The text of a line of a comment. -/
def Render.commentLine (line : Text) : Text := if line.isEmpty then "//" else "// " ++ line

theorem Render.commentLines_intercalate (h : ∀ line ∈ lines, Stripped line) :
    commentLines (List.intercalate "\n" lines) =
      List.intercalate "\n" ((Text.settled lines).map commentLine) := by
  unfold commentLines
  rw [lines_intercalate h]
  congr 1
  refine map_congr_left fun line hline => ?_
  rw [(h line (settled_subset lines hline)).trimmed, commentLine]

theorem Render.isComment_commentLine (h : Stripped line) : IsComment (commentLine line) := by
  unfold commentLine
  split
  · exact ⟨[], rfl, not_mem_nil⟩
  · exact ⟨' ' :: line, rfl, by simpa using h.feed⟩

theorem Render.trim_commentLine (h : Stripped line) :
    trim ((commentLine line).dropWhile (· = '/')) = line := by
  unfold commentLine
  split
  · next hempty => exact (isEmpty_iff.mp hempty).symm
  · exact h.trimmed

theorem StatementReader.stripped_of_comment? {c c' : Cursor} {extent : Extent} (hsits : Sits src c)
    (h : comment? src c = .ok (some (.comment extent lines)) c') :
    lines ≠ [] ∧ ∀ line ∈ lines, Stripped line := by
  obtain ⟨trailing, hlaid⟩ := hsits.laid
  unfold comment? at h
  split at h
  · next first comments token rest hrest =>
    cases h
    refine ⟨cons_ne_nil _ _, fun line hline => ?_⟩
    obtain ⟨comment, hmem, rfl⟩ := mem_map.mp hline
    have hmem : comment ∈ first :: comments := by
      rw [commentRun_append first comments]
      exact mem_append_left _ hmem
    have hcomment := (hsits.proper ⟨first :: comments, token⟩ (by rw [hrest]; simp)).2 comment hmem
    refine ⟨?_, Call.trim_trim _⟩
    have hfeed : '\n' ∉ comment.text := by
      obtain ⟨-, piece, -, -, -, hcuts, -⟩ := hlaid
      refine hcuts.comment_no_feed comment ?_ hcomment
      rw [hrest]
      exact mem_append_left _ (mem_append_left _ hmem)
    exact fun hc => hfeed ((dropWhile_sublist _).subset (trim_subset _ hc))
  · cases h

/-- The lines of a comment that was read: there is one at least, and none has blanks around it. -/
theorem SourceFile.comment_stripped {file : SourceFile} {function : FunctionDef} {extent : Extent}
    (hread : read src = .ok file) (hfunction : function ∈ file.functions)
    (hcomment : .comment extent lines ∈ function.body.within) :
    lines ≠ [] ∧ ∀ line ∈ lines, Stripped line := by
  have hall := @forall_within src (fun statement => ∀ extent lines,
    statement = .comment extent lines → lines ≠ [] ∧ ∀ line ∈ lines, Stripped line) file hread
    ?_ ?_ nofun function hfunction _ hcomment
  · exact hall extent lines rfl
  · rintro statement ⟨c, c', -, -, hreads⟩ extent lines hstatement
    cases hreads with
    | @plain first _ _ _ _ _ hplain =>
      have hcontra := hplain.isPlain (src.extent first.start c'.last)
      rw [hstatement] at hcontra
      cases hcontra
    | cond => cases hstatement
    | guarded _ hhead => cases hhead <;> cases hstatement
  · rintro _ c c' hsits hcomment extent lines rfl
    exact stripped_of_comment? hsits hcomment

theorem Text.settled_eq_self_iff (hne : lines ≠ []) :
    settled lines = lines ↔ lines.getLast? ≠ some [] := by
  unfold settled
  split
  · next hlast =>
    refine ⟨fun heq => ?_, fun hnot => absurd hlast hnot⟩
    have hlength := congrArg List.length heq
    have hpos := length_pos_iff.mpr hne
    rw [length_dropLast] at hlength
    omega
  · next hlast => exact ⟨fun _ => hlast, fun _ => rfl⟩

theorem Text.settled_ne_nil (h : ∃ line ∈ lines, line ≠ []) : settled lines ≠ [] := by
  obtain ⟨line, hmem, hline⟩ := h
  unfold settled
  split
  · next hlast =>
    obtain ⟨front, rfl⟩ := getLast?_eq_some_iff.mp hlast
    rw [dropLast_concat]
    rcases mem_append.mp hmem with hmem | hmem
    · exact ne_nil_of_mem hmem
    · exact absurd (mem_singleton.mp hmem) hline
  · exact ne_nil_of_mem hmem

/-- The node of a comment is rendered from its lines, if any of them has text. -/
theorem Walker.render_comment (setting : Setting) (extent : Extent) (lines : List Text) :
    ∃ node, walkStatement setting (.comment extent lines) {} = .ok (some node, {}) ∧
      ∀ width, render width node =
        if trim (List.intercalate "\n" lines) = [] then
          .error (.missingProperty .comment Key.comment)
        else .ok (commentLines (List.intercalate "\n" lines)) := by
  have hwalk := walkStatement_eq setting (.comment extent lines) [] false
  exact ⟨_, hwalk, Render.render_comment rfl rfl⟩

/-- Rendering the node of a comment and reading the text on lines of its own in braces gives one
comment with the same lines, unless the last line is empty. An empty last line is lost, and the node
of a comment without any text cannot be rendered. -/
theorem render_read_comment {file : SourceFile} {function : FunctionDef} {extent : Extent}
    (hread : read src = .ok file) (hfunction : function ∈ file.functions)
    (hcomment : .comment extent lines ∈ function.body.within) (setting : Setting) (width : Nat)
    (name : Text) :
    ∃ node, Walker.walkStatement setting (.comment extent lines) {} = .ok (some node, {}) ∧
      ((∀ line ∈ lines, line = []) →
        render width node = .error (.missingProperty .comment Key.comment)) ∧
      ((∃ line ∈ lines, line ≠ []) → ∃ text block extent', render width node = .ok text ∧
        Block.read ⟨name, "\x7b\n" ++ text ++ "\n\x7d"⟩ = .ok block ∧
        block.statements = [.comment extent' (Text.settled lines)]) ∧
      (Text.settled lines = lines ↔ lines.getLast? ≠ some []) := by
  obtain ⟨hne, hlines⟩ := comment_stripped hread hfunction hcomment
  have hblank := trim_intercalate_eq_nil hlines
  obtain ⟨node, hwalk, hrender⟩ := Walker.render_comment setting extent lines
  refine ⟨node, hwalk, fun hempty => ?_, fun hsome => ?_, settled_eq_self_iff hne⟩
  · exact (hrender width).trans (if_pos (hblank.mpr hempty))
  · have hgiven : trim (List.intercalate "\n" lines) ≠ [] := by
      obtain ⟨line, hmem, hline⟩ := hsome
      exact fun hnone => hline (hblank.mp hnone line hmem)
    have hrender := (hrender width).trans (if_neg hgiven)
    obtain ⟨first, more, hsettled⟩ := exists_cons_of_ne_nil (settled_ne_nil hsome)
    have hkept : ∀ line ∈ Text.settled lines, Stripped line :=
      fun line hmem => hlines line (settled_subset lines hmem)
    rw [commentLines_intercalate hlines, hsettled] at hrender
    rw [hsettled] at hkept ⊢
    have htexts : ∀ text ∈ commentLine first :: more.map commentLine,
        IsComment text := by
      rw [← map_cons]
      intro text hmem
      obtain ⟨line, hline, rfl⟩ := mem_map.mp hmem
      exact isComment_commentLine (hkept line hline)
    obtain ⟨block, extent', hblock, hstatements⟩ := Block.read_comments name htexts
    refine ⟨_, block, extent', hrender, hblock, ?_⟩
    rw [hstatements, ← map_cons, map_map]
    congr 2
    exact (map_congr_left fun line hline => trim_commentLine (hkept line hline)).trans (map_id _)

/-- The lines of a comment. -/
def Statement.lines? : Statement → Option (List Text)
  | .comment _ lines => some lines
  | _ => none

/-- A file whose only statement is a comment. -/
theorem SourceFile.exists_comment
    (h : (read src).toOption.map (fun file => (file.diagnostics.isEmpty,
      file.functions.flatMap fun function => function.body.within.map Statement.lines?)) =
        some (true, [some lines])) :
    ∃ file, read src = .ok file ∧ file.diagnostics = [] ∧
      ∃ function ∈ file.functions, ∃ extent, .comment extent lines ∈ function.body.within := by
  obtain ⟨file, hread, hshape⟩ := Option.map_eq_some_iff.mp h
  injection hshape with hclean hlines
  have hmem : some lines ∈ [some lines] := mem_singleton_self _
  rw [← hlines] at hmem
  obtain ⟨function, hfunction, hmem⟩ := mem_flatMap.mp hmem
  obtain ⟨statement, hstatement, hcomment⟩ := mem_map.mp hmem
  refine ⟨file, Except.eq_ok_of_toOption hread, isEmpty_iff.mp hclean, function, hfunction, ?_⟩
  cases statement with
  | comment extent =>
    obtain rfl := Option.some.inj hcomment
    exact ⟨extent, hstatement⟩
  | _ => cases hcomment

/-- An empty line between two others is kept. -/
theorem render_read_comment_kept :
    ∃ src file, src.text = ("function f() \x7b\n  // a\n  //\n  // b\n\x7d" : Text) ∧
      read src = .ok file ∧
      ∃ function ∈ file.functions, ∃ extent, .comment extent ["a", [], "b"] ∈ function.body.within ∧
        ∃ node text block extent',
          Walker.walkStatement {} (.comment extent ["a", [], "b"]) {} = .ok (some node, {}) ∧
          render 4 node = .ok text ∧
          Block.read ⟨"m", "\x7b\n" ++ text ++ "\n\x7d"⟩ = .ok block ∧
          block.statements = [.comment extent' ["a", [], "b"]] := by
  obtain ⟨file, hread, -, function, hfunction, extent, hcomment⟩ := @exists_comment
    ⟨"m", "function f() \x7b\n  // a\n  //\n  // b\n\x7d"⟩ ["a", [], "b"] (by decide +kernel)
  obtain ⟨node, hwalk, -, hrender, -⟩ := render_read_comment hread hfunction hcomment {} 4 "m"
  obtain ⟨text, block, extent', hresult⟩ := hrender ⟨"a", by decide, by decide⟩
  exact ⟨_, file, rfl, hread, function, hfunction, extent, hcomment, node, text, block, extent',
    hwalk, hresult⟩

/-- The node of a comment without text is not rendered, and an empty last line is lost. -/
theorem comment_unrendered_or_cut :
    (∃ src file, src.text = ("function f() \x7b\n  //\n\x7d" : Text) ∧
      read src = .ok file ∧ file.diagnostics = [] ∧
      ∃ function ∈ file.functions, ∃ extent, .comment extent [[]] ∈ function.body.within ∧
        ∃ node, Walker.walkStatement {} (.comment extent [[]]) {} = .ok (some node, {}) ∧
          render 4 node = .error (.missingProperty .comment Key.comment)) ∧
    ∃ src file, src.text = ("function f() \x7b\n  // a\n  //\n\x7d" : Text) ∧
      read src = .ok file ∧ file.diagnostics = [] ∧
      ∃ function ∈ file.functions, ∃ extent, .comment extent ["a", []] ∈ function.body.within ∧
        ∃ node, Walker.walkStatement {} (.comment extent ["a", []]) {} = .ok (some node, {}) ∧
          render 4 node = .ok "// a" := by
  constructor
  · obtain ⟨file, hread, hclean, function, hfunction, extent, hcomment⟩ :=
      @exists_comment ⟨"m", "function f() \x7b\n  //\n\x7d"⟩ [[]] (by decide +kernel)
    obtain ⟨node, hwalk, hrender⟩ := Walker.render_comment {} extent [[]]
    exact ⟨_, file, rfl, hread, hclean, function, hfunction, extent, hcomment, node, hwalk,
      hrender 4⟩
  · obtain ⟨file, hread, hclean, function, hfunction, extent, hcomment⟩ :=
      @exists_comment ⟨"m", "function f() \x7b\n  // a\n  //\n\x7d"⟩ ["a", []]
        (by decide +kernel)
    obtain ⟨node, hwalk, hrender⟩ := Walker.render_comment {} extent ["a", []]
    exact ⟨_, file, rfl, hread, hclean, function, hfunction, extent, hcomment, node, hwalk,
      (hrender 4).trans (by decide +kernel)⟩

end Flowchart
