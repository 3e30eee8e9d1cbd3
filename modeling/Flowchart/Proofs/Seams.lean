import Flowchart.Proofs.Likeness

/-!
Marks between tokens. A mark is a seam of a text when the text before it is cut into the first tokens
of the whole: the marks at which tokens start and stop are seams. The text between two seams is cut
into the tokens between them, so two texts with the same tokens have alike pieces between seams with
the same tokens before them.
-/
namespace Flowchart

open List Text

namespace Token

def keys (tokens : List Token) : List (TokenClass × Text) :=
  tokens.map fun token => (token.cls, token.text)

theorem scan_of_tokens? {text : Text} {keys : List (TokenClass × Text)}
    (h : tokens? text = some keys) : ∃ tokens, scan text = .ok tokens ∧ Token.keys tokens = keys := by
  unfold tokens? at h
  cases hscan : scan text with
  | error error =>
    rw [hscan] at h
    cases h
  | ok tokens =>
    rw [hscan] at h
    exact ⟨tokens, rfl, Option.some.inj h⟩

namespace Cuts

variable {mark : Mark} {text : Text} {tokens : List Token}

theorem tokens?_eq (h : Cuts mark text tokens) : tokens? text = some (keys tokens) := by
  obtain ⟨tokens', hcuts, hmoved⟩ := h.moved {}
  unfold tokens?
  rw [scan_eq_ok_iff.mpr hcuts]
  exact congrArg some (Moved.keys hmoved)

/-- Where the text of some tokens is the start of a text that is cut into these and others, what is
left is cut into the others. -/
theorem cancel {more : Text} {whole : List Token} (h : Cuts mark text tokens)
    (hwhole : Cuts mark (text ++ more) whole) (hcompare : tokens <+: whole ∨ whole <+: tokens) :
    ∃ others, whole = tokens ++ others ∧ Cuts (mark.after text) more others := by
  induction h generalizing whole with
  | done hgap => exact ⟨whole, rfl, hwhole.unblank hgap⟩
  | @token mark gap rest text after c cls tokens hgap hc htake _ ih =>
    obtain ⟨body, rfl, rfl⟩ := take?_split htake
    rw [append_assoc, cons_append, append_assoc] at hwhole
    obtain ⟨cls', text', after', whole, htake', hmore, rfl⟩ := (hwhole.unblank hgap).first hc
    -- the first tokens are the same one, so it ends in the same place
    obtain ⟨hsame, htails⟩ : (⟨cls, c :: body, mark.after gap, (mark.after gap).after (c :: body)⟩ :
        Token) = ⟨cls', text', mark.after gap, (mark.after gap).after text'⟩ ∧
        (tokens <+: whole ∨ whole <+: tokens) := by
      rcases hcompare with hle | hle
      · exact (cons_prefix_cons.mp hle).imp_right Or.inl
      · exact ⟨(cons_prefix_cons.mp hle).1.symm, Or.inr (cons_prefix_cons.mp hle).2⟩
    obtain ⟨rfl, rfl, -, -⟩ := Token.mk.inj hsame
    obtain ⟨body', hbody, hsplit⟩ := take?_split htake'
    obtain rfl := (List.cons.inj hbody).2
    obtain rfl := append_cancel_left hsplit
    obtain ⟨others, rfl, hothers⟩ := ih hmore htails
    refine ⟨others, rfl, ?_⟩
    rw [Mark.after_append, ← cons_append, Mark.after_append _ (c :: body)]
    exact hothers

theorem tokens?_trim (h : Cuts mark text tokens) : ∃ found, tokens? (trim text) = some found ∧
    ((∀ token ∈ tokens, token.isComment = false) → found = keys tokens) := by
  obtain ⟨found, hcuts, hsame⟩ := h.trimmed
  exact ⟨_, hcuts.tokens?_eq, fun hplain => congrArg keys (hsame (last_of_plain hplain))⟩

end Cuts

end Token

namespace Source

open Token

variable {src : Source} {tokens : List Token}

/-- The text before the mark is cut into the first `count` of the tokens. -/
def Seam (src : Source) (tokens : List Token) (count : Nat) (mark : Mark) : Prop :=
  ∃ before after, src.text = before ++ after ∧ mark = ({} : Mark).after before ∧
    Cuts {} before (tokens.take count)

theorem seam_zero (src : Source) (tokens : List Token) : src.Seam tokens 0 {} :=
  ⟨[], src.text, rfl, rfl, .done rfl⟩

theorem seam_token (h : Cuts {} src.text tokens) {count : Nat} {token : Token}
    (hmem : tokens[count]? = some token) :
    src.Seam tokens count token.start ∧ src.Seam tokens (count + 1) token.stop := by
  obtain ⟨hlt, rfl⟩ := List.getElem?_eq_some_iff.mp hmem
  constructor
  · rw [← take_append_drop count tokens, drop_eq_getElem_cons hlt] at h
    obtain ⟨front, back, htext, hstart, hfront⟩ := h.before
    exact ⟨front, back, htext, hstart, hfront⟩
  · rw [← take_append_drop (count + 1) tokens] at h
    obtain ⟨front, back, htext, hfront, hstop, -⟩ := h.split
    refine ⟨front, back, htext, ?_, hfront⟩
    rw [← hstop, take_succ_eq_append_getElem hlt, stopOf_append]
    rfl

/-- The text between two seams is cut into the tokens between them. -/
theorem cuts_slice {a b : Mark} {i j : Nat} (ha : src.Seam tokens i a) (hb : src.Seam tokens j b)
    (hi : i ≤ tokens.length) (hj : j ≤ tokens.length) :
    ∃ mark, Cuts mark (src.slice a b) ((tokens.drop i).take (j - i)) := by
  obtain ⟨before, after, htext, rfl, hcuts⟩ := ha
  obtain ⟨before', after', htext', rfl, hcuts'⟩ := hb
  have hstarts : before <+: src.text := ⟨after, htext.symm⟩
  have hstarts' : before' <+: src.text := ⟨after', htext'.symm⟩
  have hcompare := List.prefix_or_prefix_of_prefix (List.take_prefix i tokens)
    (List.take_prefix j tokens)
  by_cases hle : before.length ≤ before'.length
  · obtain ⟨piece, rfl⟩ := prefix_of_prefix_length_le hstarts hstarts' hle
    obtain ⟨others, hothers, hpiece⟩ := hcuts.cancel hcuts' hcompare
    rw [append_assoc] at htext'
    rw [slice_after htext', ← drop_take, hothers, drop_left' (length_take_of_le hi)]
    exact ⟨_, hpiece⟩
  · obtain ⟨piece, rfl⟩ := prefix_of_prefix_length_le hstarts' hstarts (by omega)
    obtain ⟨others, hothers, -⟩ := hcuts'.cancel hcuts hcompare.symm
    have hlength := congrArg List.length hothers
    rw [length_append, length_take_of_le hi, length_take_of_le hj] at hlength
    have hempty : src.slice (({} : Mark).after (before' ++ piece)) (({} : Mark).after before') = [] := by
      simp [slice, Text.slice]
    rw [hempty, show j - i = 0 by omega]
    exact ⟨{}, .done rfl⟩

end Source

/-- Pairs of marks of two sources between which the sources have alike texts, and how many lines
further down comments stand in the second source. -/
structure Alignment (src src' : Source) where
  holds : Mark → Mark → Prop
  texts : Text → Text → Prop
  lines : Nat
  exact {a a' b b' : Mark} (ha : holds a a') (hb : holds b b') :
    texts (src.slice a b) (src'.slice a' b')
  slices {a a' b b' : Mark} (ha : holds a a') (hb : holds b b') :
    Text.Alike (src.slice a b) (src'.slice a' b')
  trims {a a' b b' : Mark} (ha : holds a a') (hb : holds b b') :
    Text.Alike (trim (src.slice a b)) (trim (src'.slice a' b'))

theorem Token.keys_between (tokens : List Token) (i j : Nat) :
    keys ((tokens.drop i).take (j - i)) = ((keys tokens).drop i).take (j - i) := by
  unfold keys
  rw [map_take, map_drop]

/-- Marks with the same tokens before them, where the sources have the same tokens and no comment
is among them. -/
def Source.seams {src src' : Source} {tokens tokens' : List Token}
    (hkeys : Token.keys tokens = Token.keys tokens')
    (hcomment : ∀ token ∈ tokens, token.isComment = false)
    (hcomment' : ∀ token ∈ tokens', token.isComment = false) : Alignment src src' where
  holds mark mark' := ∃ count, count ≤ tokens.length ∧ count ≤ tokens'.length ∧
    src.Seam tokens count mark ∧ src'.Seam tokens' count mark'
  texts _ _ := True
  lines := 0
  exact _ _ := trivial
  slices := by
    rintro a a' b b' ⟨i, hi, hi', ha, ha'⟩ ⟨j, hj, hj', hb, hb'⟩
    obtain ⟨_, hcuts⟩ := cuts_slice ha hb hi hj
    obtain ⟨_, hcuts'⟩ := cuts_slice ha' hb' hi' hj'
    refine ⟨_, hcuts.tokens?_eq, ?_⟩
    rw [hcuts'.tokens?_eq, Token.keys_between, Token.keys_between, hkeys]
  trims := by
    rintro a a' b b' ⟨i, hi, hi', ha, ha'⟩ ⟨j, hj, hj', hb, hb'⟩
    obtain ⟨_, hcuts⟩ := cuts_slice ha hb hi hj
    obtain ⟨_, hcuts'⟩ := cuts_slice ha' hb' hi' hj'
    have hbetween {tokens : List Token} (h : ∀ token ∈ tokens, token.isComment = false) :
        ∀ token ∈ (tokens.drop i).take (j - i), token.isComment = false :=
      fun token hmem => h token (mem_of_mem_drop (mem_of_mem_take hmem))
    obtain ⟨_, htrim, hsame⟩ := hcuts.tokens?_trim
    obtain ⟨_, htrim', hsame'⟩ := hcuts'.tokens?_trim
    refine ⟨_, htrim, ?_⟩
    rw [htrim', hsame (hbetween hcomment), hsame' (hbetween hcomment'), Token.keys_between,
      Token.keys_between, hkeys]

/-- Marks at the same distance from where a text starts that both sources end in. -/
structure Source.Shifted (src : Source) (front front' : Text) (tokens : List Token)
    (a a' : Mark) : Prop where
  index : ∃ n, a.index = front.length + n ∧ a'.index = front'.length + n
  seam : ∃ count, count ≤ tokens.length ∧ src.Seam tokens count a

theorem Source.Shifted.cuts {src : Source} {front front' : Text} {tokens : List Token}
    {a a' b b' : Mark} (ha : src.Shifted front front' tokens a a')
    (hb : src.Shifted front front' tokens b b') :
    ∃ mark found, Token.Cuts mark (src.slice a b) found := by
  obtain ⟨i, hi, hseam⟩ := ha.seam
  obtain ⟨j, hj, hseam'⟩ := hb.seam
  obtain ⟨mark, hcuts⟩ := cuts_slice hseam hseam' hi hj
  exact ⟨mark, _, hcuts⟩

/-- Marks in a text that both sources end in. -/
def Source.shifted {src src' : Source} {front front' tail : Text} (tokens : List Token) (lines : Nat)
    (hsrc : src.text = front ++ tail) (hsrc' : src'.text = front' ++ tail) : Alignment src src' :=
  have hequal {a a' b b' : Mark} (ha : src.Shifted front front' tokens a a')
      (hb : src.Shifted front front' tokens b b') : src.slice a b = src'.slice a' b' := by
    obtain ⟨n, hn, hn'⟩ := ha.index
    obtain ⟨m, hm, hm'⟩ := hb.index
    simp only [slice, Text.slice, hsrc, hsrc', hn, hn', hm, hm', Nat.add_sub_add_left,
      drop_length_add_append]
  { holds := src.Shifted front front' tokens
    texts := Eq
    lines := lines
    exact := hequal
    slices := by
      intro a a' b b' ha hb
      obtain ⟨_, _, hcuts⟩ := ha.cuts hb
      rw [← hequal ha hb]
      exact ⟨_, hcuts.tokens?_eq, hcuts.tokens?_eq⟩
    trims := by
      intro a a' b b' ha hb
      obtain ⟨_, _, hcuts⟩ := ha.cuts hb
      obtain ⟨_, htrim, -⟩ := hcuts.tokens?_trim
      rw [← hequal ha hb]
      exact ⟨_, htrim, htrim⟩ }

end Flowchart
