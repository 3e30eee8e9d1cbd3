import Flowchart.Proofs.Editing
import Flowchart.Proofs.Seams

/-!
The tokens of a text share it out: they stand one after another, each of them takes some characters,
and what no token takes is blank. How much blank stands between them makes no difference: the token
texts written one after another, each with a blank behind it, are cut into the same tokens.
-/
namespace Flowchart.Token

open List Text

variable {src : Source} {text : Text} {mark : Mark} {tokens : List Token} {token : Token}

/-- A token of a cut text is what the scanner takes where the token starts. -/
theorem Cuts.place (h : Cuts mark text tokens) (hmem : token ∈ tokens) :
    ∃ before c body after, text = before ++ (c :: body ++ after) ∧ token.text = c :: body ∧
      token.start = mark.after before ∧ token.stop = token.start.after token.text ∧
      take? c (body ++ after) = some (token.cls, c :: body, after) := by
  induction h with
  | done => cases hmem
  | @token mark gap rest text after c cls tokens _ _ htake _ ih =>
    obtain ⟨body, rfl, rfl⟩ := take?_split htake
    rcases mem_cons.mp hmem with rfl | hmem
    · exact ⟨gap, c, body, after, rfl, rfl, rfl, rfl, htake⟩
    · obtain ⟨before, d, inner, left, rfl, htext, hstart, hstop, htaken⟩ := ih hmem
      refine ⟨gap ++ (c :: body ++ before), d, inner, left, by simp, htext, ?_, hstop, htaken⟩
      rw [hstart, ← Mark.after_append, ← Mark.after_append]

theorem Cuts.sorted (h : Cuts mark text tokens) :
    tokens.Pairwise fun a b => a.stop.index ≤ b.start.index := by
  induction h with
  | done => exact .nil
  | token _ _ _ hmore ih =>
    refine pairwise_cons.mpr ⟨fun later hmem => ?_, ih⟩
    obtain ⟨before, _, _, _, -, -, hstart, -⟩ := hmore.place hmem
    rw [hstart]
    exact Nat.le_add_right _ _

/-- A character that stands in no token is blank. -/
theorem Cuts.outside {before after : Text} {c : Char} (h : Cuts mark text tokens)
    (htext : text = before ++ c :: after)
    (hout : ∀ token ∈ tokens, mark.index + before.length < token.start.index ∨
      token.stop.index ≤ mark.index + before.length) : isBlank c := by
  induction h generalizing before with
  | done hgap => exact all_eq_true.mp hgap c (by simp [htext])
  | @token mark gap rest text left d cls tokens hgap _ htake _ ih =>
    obtain ⟨body, rfl, rfl⟩ := take?_split htake
    rw [← cons_append] at htext
    obtain ⟨hfirst, hmore⟩ := forall_mem_cons.mp hout
    simp only [Mark.index_after] at hfirst
    rcases append_eq_append_iff.mp htext with ⟨inner, rfl, hinner⟩ | ⟨inner, rfl, hinner⟩
    · -- The character stands behind the blanks, so it stands behind the token.
      rw [length_append] at hfirst
      have hlength : (d :: body).length ≤ inner.length := by omega
      obtain ⟨more, rfl⟩ := prefix_of_prefix_length_le ⟨left, hinner⟩ (prefix_append inner _) hlength
      rw [append_assoc] at hinner
      refine ih (append_cancel_left hinner) fun token hmem => ?_
      have hother := hmore token hmem
      simp only [length_append, Mark.index_after] at hother ⊢
      omega
    · cases inner with
      | nil =>
        simp only [append_nil, length_cons] at hfirst
        omega
      | cons e inner =>
        obtain ⟨rfl, -⟩ := List.cons.inj hinner
        exact all_eq_true.mp hgap c (by simp)

/-- The tokens of a text are pieces of it between characters, none of them is empty, each starts
where the one before it stops or later, and every character in none of them is blank. A comment
starts with two slashes and runs up to the next line feed or the end of the text. -/
theorem scan_partitions (h : scan src.text = .ok tokens) :
    (∀ token ∈ tokens, src.offset token.start < src.offset token.stop ∧
      Between src.text (src.offset token.start) (src.offset token.stop) token.text) ∧
    tokens.Pairwise (fun a b => src.offset a.stop ≤ src.offset b.start) ∧
    (∀ before c after, src.text = before ++ c :: after →
      (∀ token ∈ tokens, byteLength before < src.offset token.start ∨
        src.offset token.stop ≤ byteLength before) → isBlank c = true) ∧
    ∀ token ∈ tokens, token.isComment = true → ∃ body after, token.text = '/' :: '/' :: body ∧
      '\n' ∉ body ∧ Between src.text (src.offset token.stop) (byteLength src.text) after ∧
      after.head?.all (· = '\n') = true := by
  have hcuts := scan_eq_ok_iff.mp h
  refine ⟨fun token hmem => ?_, hcuts.sorted.imp Source.offset_mono, ?_, ?_⟩
  · obtain ⟨before, c, body, after, htext, htoken, hstart, hstop, -⟩ := hcuts.place hmem
    have hstop' := htext.trans (append_assoc ..).symm
    rw [hstop, hstart, htoken, ← Mark.after_append, Source.offset_after htext,
      Source.offset_after hstop', byteLength_append]
    exact ⟨Nat.lt_add_of_pos_right (byteLength_pos (cons_ne_nil c body)), before, after, htext,
      rfl, byteLength_append ..⟩
  · intro before c after htext hout
    refine hcuts.outside htext fun token hmem => ?_
    obtain ⟨front, d, body, back, htext', htoken, hstart, hstop, -⟩ := hcuts.place hmem
    have hwithin : token.stop.index ≤ src.text.length := by
      rw [hstop, hstart, htoken, htext', ← Mark.after_append, ← append_assoc, length_append]
      exact (Nat.zero_add _).trans_le (Nat.le_add_right _ _)
    rw [← Source.offset_after htext] at hout
    refine (hout token hmem).imp (fun hlt => ?_) fun hle => ?_
    · exact Nat.not_le.mp fun hle => Nat.not_le.mpr hlt (Source.offset_mono hle)
    · have hlength := (prefix_of_byteLength_le ( take_prefix ..) ( take_prefix ..) hle).length_le
      rw [length_take, length_take, Nat.min_eq_left hwithin] at hlength
      exact hlength.trans (Nat.min_le_left ..)
  · intro token hmem hcomment
    obtain ⟨before, c, body, after, htext, htoken, hstart, hstop, htake⟩ := hcuts.place hmem
    rw [show token.cls = .comment from of_decide_eq_true hcomment] at htake
    obtain ⟨-, rfl, hslash, htaken⟩ := (take?_cases htake).resolve_right (by simp)
    obtain ⟨hfeed, hend⟩ := takeComment_ends htaken
    obtain ⟨line, rfl⟩ : ∃ line, body = '/' :: line := by
      cases body with
      | nil =>
        obtain rfl | ⟨c, rest⟩ := after
        · cases hslash
        · cases hslash
          cases hend
      | cons d line => exact ⟨line, by cases hslash; rfl⟩
    rw [← append_assoc] at htext
    rw [hstop, hstart, htoken, ← Mark.after_append, Source.offset_after htext]
    exact ⟨line, after, rfl, fun hmem => hfeed (by simp [hmem]), ⟨_, [], by rw [append_nil, htext],
      rfl, by rw [htext]⟩, hend⟩

/-- Behind characters of several bytes, a comment ends before the line feed and keeps the carriage
return. -/
theorem scan_partitions_comment :
    ∃ (src : Source) (tokens : List Token) (comment : Token),
      src.text = ("x = \"é😀\"; // é\r\n" : Text) ∧ scan src.text = .ok tokens ∧
      comment ∈ tokens ∧ comment.isComment ∧
      src.offset comment.start = 14 ∧ ∃ body after, comment.text = '/' :: '/' :: body ∧
        '\n' ∉ body ∧ Between src.text (src.offset comment.stop) (byteLength src.text) after ∧
        after.head?.all (· = '\n') := by
  let src : Source := ⟨"m", "x = \"é😀\"; // é\r\n"⟩
  obtain ⟨tokens, hscan, comment, hmem, hclass, hstart⟩ := Except.exists_ok (scan src.text)
    (fun tokens => ∃ token ∈ tokens, token.isComment ∧ src.offset token.start = 14)
    (by decide +kernel)
  exact ⟨src, tokens, comment, rfl, hscan, hmem, hclass, hstart,
    (scan_partitions hscan).2.2.2 comment hmem hclass⟩

/-- The texts of tokens one after another, with a line feed behind a comment and a space behind any
other token. -/
def spaced (keys : List (TokenClass × Text)) : Text :=
  keys.flatMap fun key => key.2 ++ [if key.1 = .comment then '\n' else ' ']

theorem Cuts.spaced (h : Cuts mark text tokens) (mark' : Mark) :
    ∃ tokens', Cuts mark' (spaced (keys tokens)) tokens' ∧ keys tokens' = keys tokens := by
  induction h generalizing mark' with
  | done => exact ⟨[], .done rfl, rfl⟩
  | @token _ gap rest text after c cls tokens _ hc htake _ ih =>
    obtain ⟨body, rfl, rfl⟩ := take?_split htake
    let blank := if cls = .comment then '\n' else ' '
    have hblank : isBlank blank = true := by
      unfold blank
      split <;> decide
    have hkeeps : Keeps cls after ([blank] ++ Token.spaced (keys tokens)) :=
      ⟨[], after, _, rfl, rfl, separates_of_isBlank hblank, fun hcls _ => by simp [blank, hcls]⟩
    obtain ⟨tokens', hcuts, hkeys⟩ := ih ((mark'.after (c :: body)).after [blank])
    have hfirst : Cuts mark' ([] ++ c :: (body ++ ([blank] ++ Token.spaced (keys tokens)))) _ :=
      .token rfl hc (take?_keeps htake hkeeps) (.blank (by rw [all_cons, hblank]; rfl) hcuts)
    rw [keys, map_cons, Token.spaced, flatMap_cons, append_assoc]
    exact ⟨_, hfirst, congrArg (_ :: ·) hkeys⟩

/-- Tokens do not depend on the blanks between them. -/
theorem tokens?_spaced {found : List (TokenClass × Text)} (h : tokens? text = some found) :
    tokens? (spaced found) = some found := by
  obtain ⟨tokens, hscan, rfl⟩ := scan_of_tokens? h
  obtain ⟨tokens', hcuts, hkeys⟩ := (scan_eq_ok_iff.mp hscan).spaced {}
  rw [hcuts.tokens?_eq, hkeys]

/-- A number before a point, a slash before a comment and a comment before a line feed stay what they
are. -/
theorem tokens?_spaced_mixed : ∃ found, tokens? "1.x=/ //a\r\n==.2" = some found ∧
    spaced found = ("1 . x = / //a\r\n== . 2 " : Text) ∧ tokens? (spaced found) = some found := by
  have hshape : (tokens? "1.x=/ //a\r\n==.2").any (fun found =>
      spaced found = "1 . x = / //a\r\n== . 2 ") = true := by
    decide +kernel
  obtain ⟨found, hfound, hspaced⟩ := (Option.any_eq_true _ _).mp hshape
  exact ⟨found, hfound, of_decide_eq_true hspaced, tokens?_spaced hfound⟩

end Flowchart.Token
