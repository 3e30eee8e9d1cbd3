import Flowchart.Proofs.Nesting
import Mathlib.Algebra.Group.Nat.Defs

/-!
Identities of nodes. The positions of a text are small enough for the eight bytes that each number
takes in what is hashed, so the bytes of two nodes of one file are the same only if their kinds and
ranges are. The nodes of a diagram differ in these, so their bytes are different, and the identity
of a node is that of no other one unless the hash takes two of them to the same word.
-/
namespace Flowchart

open List

namespace Hash

variable {a b : Nat}

theorem length_wordBytes (n : Nat) : (wordBytes n).length = 8 := by
  rw [wordBytes, length_map, length_range]

theorem mod_of_bytes {count : Nat}
    (h : ∀ i < count, a / 2 ^ (8 * i) % 2 ^ 8 = b / 2 ^ (8 * i) % 2 ^ 8) :
    a % 2 ^ (8 * count) = b % 2 ^ (8 * count) := by
  induction count with
  | zero => rw [Nat.pow_zero, Nat.mod_one, Nat.mod_one]
  | succ count ih =>
    rw [Nat.mul_succ, Nat.pow_add, Nat.mod_mul, Nat.mod_mul,
      ih fun i hi => h i (Nat.lt_succ_of_lt hi), h count (Nat.lt_succ_self count)]

theorem wordBytes_inj (ha : a < 2 ^ 64) (hb : b < 2 ^ 64) (h : wordBytes a = wordBytes b) :
    a = b := by
  have hbyte (i : Nat) (hi : i < 8) : a / 2 ^ (8 * i) % 2 ^ 8 = b / 2 ^ (8 * i) % 2 ^ 8 := by
    have hsame := map_inj_left.mp h i (mem_range.mpr hi)
    have hnat := congrArg UInt8.toNat hsame
    simpa only [UInt8.toNat_ofNat', Nat.shiftRight_eq_div_pow] using hnat
  have hmod : a % 2 ^ 64 = b % 2 ^ 64 := mod_of_bytes hbyte
  rwa [Nat.mod_eq_of_lt ha, Nat.mod_eq_of_lt hb] at hmod

theorem wordBytes_append_inj {rest more : List UInt8} (ha : a < 2 ^ 64) (hb : b < 2 ^ 64)
    (h : wordBytes a ++ rest = wordBytes b ++ more) : a = b ∧ rest = more := by
  obtain ⟨hbytes, hrest⟩ := append_inj h (by rw [length_wordBytes, length_wordBytes])
  exact ⟨wordBytes_inj ha hb hbytes, hrest⟩

end Hash

theorem NodeKind.mem_all (kind : NodeKind) : kind ∈ all := by cases kind <;> decide

theorem NodeKind.number_inj {a b : NodeKind} (h : a.number = b.number) : a = b :=
  (idxOf_inj a.mem_all).mp h

theorem NodeKind.number_lt (kind : NodeKind) : kind.number < 2 ^ 64 := by
  have hlt : kind.number < all.length := idxOf_lt_length_of_mem kind.mem_all
  have hlength : all.length = 22 := rfl
  omega

namespace Text

theorem units16_le_utf8Size (c : Char) : units16 c ≤ c.utf8Size := by
  have hpos := c.utf8Size_pos
  unfold units16
  split
  · exact hpos
  · have hne : c.utf8Size ≠ 1 := by
      rw [ne_eq, Char.utf8Size_eq_one_iff, UInt32.le_iff_toNat_le]
      have hnat : c.toNat = c.val.toNat := rfl
      have hascii : (127 : UInt32).toNat = 127 := rfl
      omega
    omega

/-- One character moves a position by no more than its bytes. -/
theorem step_le (p : Position) (c : Char) : (p.step c).line ≤ p.line + c.utf8Size ∧
    (p.step c).column ≤ p.column + c.utf8Size := by
  have hpos := c.utf8Size_pos
  have hunits := units16_le_utf8Size c
  unfold Position.step
  split <;> dsimp only <;> constructor <;> omega

theorem after_le (p : Position) (text : Text) :
    (p.after text).line ≤ p.line + byteLength text ∧
      (p.after text).column ≤ p.column + byteLength text := by
  induction text generalizing p with
  | nil => exact ⟨Nat.le_refl _, Nat.le_refl _⟩
  | cons c rest ih =>
    have hrest : (p.step c).after rest = p.after (c :: rest) := rfl
    obtain ⟨hline, hcolumn⟩ := ih (p.step c)
    obtain ⟨hstep, hstep'⟩ := step_le p c
    rw [hrest] at hline hcolumn
    rw [byteLength]
    omega

/-- No line or column in a text is greater than the length of the text. -/
theorem offsetAt?_le {p : Position} {text : Text} {offset : Nat}
    (h : offsetAt? text p = some offset) : p.line ≤ byteLength text ∧ p.column ≤ byteLength text := by
  obtain ⟨before, after, rfl, rfl, -⟩ := offsetAt?_eq_some_iff.mp h
  obtain ⟨hline, hcolumn⟩ := after_le {} before
  rw [byteLength_append]
  dsimp only at hline hcolumn
  omega

end Text

namespace Node

/-- The bytes whose hash is the identity of a node. -/
def bytes (node : Node) : List UInt8 :=
  identityBytes node.kind node.label node.range node.properties

/-- All numbers of the range have eight bytes. -/
structure Fits (range : SourceRange) : Prop where
  start_line : range.start.line < 2 ^ 64
  start_column : range.start.column < 2 ^ 64
  stop_line : range.stop.line < 2 ^ 64
  stop_column : range.stop.column < 2 ^ 64

theorem Covers.fits {src : Source} {range : SourceRange} {node : Node}
    (h : node.Covers src range) (hlength : Text.byteLength src.text < 2 ^ 64) : Fits range := by
  have hsource := h.source
  unfold Source.textAt? at hsource
  rw [if_pos h.file] at hsource
  split at hsource
  · next start stop hstart hstop =>
    obtain ⟨hline, hcolumn⟩ := Text.offsetAt?_le hstart
    obtain ⟨hline', hcolumn'⟩ := Text.offsetAt?_le hstop
    constructor <;> omega
  · cases hsource

/-- The bytes of two nodes of one file tell their kinds and their ranges apart. -/
theorem bytes_inj {a b : Node} {r s : SourceRange} (ha : a.range = some r) (hb : b.range = some s)
    (hfile : r.file = s.file) (hr : Fits r) (hs : Fits s) (h : a.bytes = b.bytes) :
    a.kind = b.kind ∧ a.range = b.range := by
  unfold bytes identityBytes at h
  rw [ha, hb] at h
  obtain ⟨hkind, h⟩ := Hash.wordBytes_append_inj a.kind.number_lt b.kind.number_lt h
  simp only [rangeBytes, hfile, append_assoc] at h
  have h := append_cancel_left h
  obtain ⟨hline, h⟩ := Hash.wordBytes_append_inj hr.start_line hs.start_line h
  obtain ⟨hcolumn, h⟩ := Hash.wordBytes_append_inj hr.start_column hs.start_column h
  obtain ⟨hline', h⟩ := Hash.wordBytes_append_inj hr.stop_line hs.stop_line h
  have hcolumn' := Hash.wordBytes_inj hr.stop_column hs.stop_column h
  obtain ⟨file', ⟨line₁, column₁⟩, ⟨line₂, column₂⟩⟩ := s
  subst hfile hline hcolumn hline' hcolumn'
  exact ⟨NodeKind.number_inj hkind, ha.trans hb.symm⟩

/-- The number that hexadecimal digits are read as. -/
def hexValue (digits : Text) : Nat :=
  digits.foldl (fun n c => 16 * n + ((List.range 16).map Nat.digitChar).idxOf c) 0

theorem hexValue_toDigits (n : Nat) : hexValue (Nat.toDigits 16 n) = n := by
  have hdigit : ∀ d < 16, ((List.range 16).map Nat.digitChar).idxOf d.digitChar = d := by decide
  induction n using Nat.strongRecOn with
  | ind n ih =>
    by_cases hlt : n < 16
    · rw [Nat.toDigits_of_lt_base hlt, hexValue, foldl_cons, foldl_nil, hdigit n hlt]
      omega
    · have hrest := ih (n / 16) (by omega)
      unfold hexValue at hrest
      rw [Nat.toDigits_of_base_le (by omega) (by omega), hexValue, foldl_append,
        foldl_cons, foldl_nil, hdigit (n % 16) (by omega)]
      omega

theorem hexValue_zeros (count : Nat) (digits : Text) :
    hexValue (List.replicate count '0' ++ digits) = hexValue digits := by
  induction count with
  | zero => rfl
  | succ count ih => exact ih

theorem hexText_inj {a b : UInt64} (h : hexText a = hexText b) : a = b := by
  have hvalue (word : UInt64) : hexValue (hexText word) = word.toNat :=
    (hexValue_zeros _ _).trans (hexValue_toDigits _)
  apply UInt64.toNat_inj.mp
  rw [← hvalue a, ← hvalue b, h]

end Node

namespace Diagram

open Node

/-- If the nodes of a diagram have different identities, a node is found by its own. -/
theorem find?_eq_some_iff {diagram : Diagram}
    (h : (flatten diagram.nodes).Pairwise fun a b => a.id ≠ b.id) (id : Text) (node : Node) :
    diagram.find? id = some node ↔ node ∈ flatten diagram.nodes ∧ node.id = id := by
  unfold find?
  constructor
  · intro hfound
    exact ⟨mem_of_find?_eq_some hfound, by simpa using find?_some hfound⟩
  · rintro ⟨hmem, rfl⟩
    obtain ⟨before, after, hsplit⟩ := append_of_mem hmem
    rw [hsplit] at h ⊢
    have hbefore := (pairwise_append.mp h).2.2
    rw [find?_append, find?_eq_none.mpr, Option.none_or, find?_cons_of_pos (by simp)]
    intro other hother
    simpa using hbefore other hother node mem_cons_self

/-- Identity of nodes. The diagram of a function that was read can only fail for diagnostics out of
order. Of its nodes, at any depth, no two have the same kind and the same range. The identity of a
node is written from a hash of bytes, and the bytes of any two nodes are different, in a text whose
length has eight bytes. So unless two of them have the same hash, each node is found by its identity
and nothing else is. -/
theorem ofFunction_identifies {src : Source} {file : SourceFile} {function : FunctionDef}
    (setting : Setting) (notices : Notices) (hread : SourceFile.read src = .ok file)
    (hfunction : function ∈ file.functions) :
    (∀ error, ofFunction setting notices function = .error error →
      ∃ previous current, error = .unsortedDiagnostics previous current) ∧
    ∀ diagram, ofFunction setting notices function = .ok diagram →
      (flatten diagram.nodes).Pairwise (fun a b => ¬ (a.kind = b.kind ∧ a.range = b.range)) ∧
      (∀ node ∈ flatten diagram.nodes, node.id = hexText (Hash.sip node.bytes)) ∧
      (Text.byteLength src.text < 2 ^ 64 →
        (flatten diagram.nodes).Pairwise (fun a b => a.bytes ≠ b.bytes) ∧
        ((∀ a ∈ flatten diagram.nodes, ∀ b ∈ flatten diagram.nodes,
            Hash.sip a.bytes = Hash.sip b.bytes → a.bytes = b.bytes) →
          ∀ id node, diagram.find? id = some node ↔
            node ∈ flatten diagram.nodes ∧ node.id = id)) := by
  refine ⟨fun error h => ofFunction_error h, fun diagram h => ?_⟩
  obtain ⟨start, stop, -, hlaid⟩ := ofFunction_laid hread hfunction h
  have hregular := ofFunction_regular hread hfunction h
  have hid (node : Node) (hmem : node ∈ flatten diagram.nodes) :
      node.id = hexText (Hash.sip node.bytes) := (hregular node hmem).id_eq
  have hdiffers := hlaid.differs hregular
  refine ⟨hdiffers, hid, fun hlength => ?_⟩
  have hbytes : (flatten diagram.nodes).Pairwise fun a b => a.bytes ≠ b.bytes := by
    refine hdiffers.imp_of_mem fun {a b} ha hb hne hsame => hne ?_
    obtain ⟨r, hr, -, -⟩ := hlaid.deep a ha
    obtain ⟨s, hs, -, -⟩ := hlaid.deep b hb
    exact bytes_inj hr.range_eq hs.range_eq (hr.file.trans hs.file.symm) (hr.fits hlength)
      (hs.fits hlength) hsame
  refine ⟨hbytes, fun hhash => find?_eq_some_iff (hbytes.imp_of_mem ?_)⟩
  intro a b ha hb hne hsame
  rw [hid a ha, hid b hb] at hsame
  exact hne (hhash a ha b hb (hexText_inj hsame))

/-- A function with a chain of else-ifs, in which two branches have the range of the condition in
them. -/
theorem ofFunction_identifies_chained :
    ∃ src file function diagram, src.text =
        ("function f() \x7b if a \x7b \x7d else if b \x7b \x7d else if c \x7b \x7d \x7d" : Text) ∧
      SourceFile.read src = .ok file ∧ function ∈ file.functions ∧
      ofFunction {} {} function = .ok diagram ∧
      (flatten diagram.nodes).map (·.kind) =
        [.start, .cond, .block, .block, .cond, .block, .block, .cond, .block] ∧
      ∀ node ∈ flatten diagram.nodes, diagram.find? node.id = some node := by
  have hshape : (ofFirst (fun _ => {})
      "function f() \x7b if a \x7b \x7d else if b \x7b \x7d else if c \x7b \x7d \x7d").map
      (fun (found : SourceFile × FunctionDef × Diagram) => ((flatten found.2.2.nodes).map (·.kind),
        decide (∀ a ∈ flatten found.2.2.nodes, ∀ b ∈ flatten found.2.2.nodes,
          Hash.sip a.bytes = Hash.sip b.bytes → a.bytes = b.bytes))) =
      some ([.start, .cond, .block, .block, .cond, .block, .block, .cond, .block], true) := by
    decide +kernel
  obtain ⟨⟨file, function, diagram⟩, hfound, hshape⟩ := Option.map_eq_some_iff.mp hshape
  obtain ⟨hkinds, hhash⟩ := Prod.mk.inj hshape
  obtain ⟨hread, hfunction, hdiagram⟩ := ofFirst_eq_some hfound
  have hlength : Text.byteLength
      "function f() \x7b if a \x7b \x7d else if b \x7b \x7d else if c \x7b \x7d \x7d" < 2 ^ 64 := by
    decide
  obtain ⟨-, -, hfind⟩ := (ofFunction_identifies {} {} hread hfunction).2 diagram hdiagram
  refine ⟨_, file, function, diagram, rfl, hread, hfunction, hdiagram, hkinds, ?_⟩
  intro node hmem
  exact ((hfind hlength).2 (of_decide_eq_true hhash) node.id node).mpr ⟨hmem, rfl⟩

end Diagram

end Flowchart
