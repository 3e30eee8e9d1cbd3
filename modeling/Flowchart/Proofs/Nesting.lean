import Flowchart.Proofs.Suggestion

/-!
Strict nesting. A statement with blocks starts with a keyword, so the first of its blocks starts
after it does, and so do the nodes below its node. Where a node and one below it have the same range
they are the branch and the condition of an else-if, which are of different kinds. So no two nodes
of a diagram have the same kind and the same range.
-/
namespace Flowchart

variable {rest : List Node} {node : Node}

local instance (priority := low) Position.nestOrder : LinearOrder Position := Position.linearOrder

namespace Node

def AllRegular (nodes : List Node) : Prop := ∀ node ∈ flatten nodes, node.Regular

theorem allRegular_cons : AllRegular (node :: rest) ↔
    node.Regular ∧ AllRegular node.children ∧ AllRegular node.branches ∧ AllRegular rest := by
  unfold AllRegular
  simp only [mem_flatten_cons]
  constructor
  · intro h
    exact ⟨h node (Or.inl rfl), fun below hbelow => h below (Or.inr (Or.inl hbelow)),
      fun below hbelow => h below (Or.inr (Or.inr (Or.inl hbelow))),
      fun below hbelow => h below (Or.inr (Or.inr (Or.inr hbelow)))⟩
  · rintro ⟨hnode, hchildren, hbranches, hrest⟩ below (rfl | hbelow | hbelow | hbelow)
    · exact hnode
    · exact hchildren below hbelow
    · exact hbranches below hbelow
    · exact hrest below hbelow

/-- The nodes are of different kinds or at different ranges. -/
def Differs (a b : Node) : Prop := ¬ (a.kind = b.kind ∧ a.range = b.range)

theorem Differs.of_start {a b : Node} {r s : SourceRange} (ha : a.range = some r)
    (hb : b.range = some s) (h : r.start < s.start) : a.Differs b := by
  rintro ⟨-, hrange⟩
  rw [ha, hb, Option.some.injEq] at hrange
  rw [hrange] at h
  exact lt_irrefl _ h

namespace Laid

variable {src : Source} {given : SourceRange → Prop} {rank : Rank} {start stop : Position}
  {nodes : List Node}

/-- What is below a regular node for a statement starts after it. -/
theorem starts_after {range : SourceRange} (hrange : node.range = some range)
    (hregular : node.Regular) (h : Laid src given .branch start stop node.branches) :
    ∀ below ∈ flatten node.branches, ∃ inner, below.range = some inner ∧
      range.start < inner.start := by
  have hinset := hregular.inset range hrange
  generalize node.branches = branches at h hinset ⊢
  cases h with
  | nil => exact nofun
  | branch hcovers hsame hstart hstop hkind hnone hencloses hle hchildren hrest =>
    have hfirst := hinset _ rfl _ hcovers.range_eq
    have hlaid :=
      Laid.branch hcovers hsame (le_refl _) hstop hkind hnone hencloses hle hchildren hrest
    intro below hmem
    obtain ⟨inner, hinner, hfrom, -⟩ := hlaid.deep below hmem
    exact ⟨inner, hinner.range_eq, by order⟩

/-- What is in a branch differs from it: it starts after the brace of the branch, or is the condition
of an else-if or below that. -/
theorem differs_of_encloses {range : SourceRange} {first last : Position}
    (hrange : node.range = some range) (hkind : node.kind = .block)
    (hencloses : node.Encloses range first last)
    (h : Laid src given .statement first last node.children) (hregular : AllRegular node.children) :
    ∀ below ∈ flatten node.children, node.Differs below := by
  intro below hmem
  cases hencloses with
  | braces =>
    have hbrace : range.start < range.start.after "\x7b" := Position.lt_after _ _ _
    obtain ⟨inner, hinner, hfrom, -⟩ := h.deep below hmem
    exact .of_start hrange hinner.range_eq (by order)
  | chained _ hchild hcond hsame =>
    rw [hchild] at h hregular hmem
    obtain ⟨hnode, -, -, -⟩ := allRegular_cons.mp hregular
    cases h with
    | statement _ _ _ _ _ hnone hbranches _ =>
      rcases mem_flatten_cons.mp hmem with rfl | hinner | hinner | hrest
      · rintro ⟨hsame, -⟩
        rw [hkind, hcond] at hsame
        cases hsame
      · rw [hnone] at hinner
        cases hinner
      · obtain ⟨inner, hinner, hlt⟩ := starts_after hsame hnode hbranches below hinner
        exact .of_start hrange hinner hlt
      · cases hrest

/-- Nodes that end where others start differ from them, at any depth. -/
theorem differs_of_apart {rank' : Rank} {middle middle' : Position} {more : List Node}
    (h : Laid src given rank start middle nodes)
    (hmore : Laid src given rank' middle' stop more) (hle : middle ≤ middle') :
    ∀ a ∈ flatten nodes, ∀ b ∈ flatten more, a.Differs b := by
  intro a ha b hb
  obtain ⟨r, hr, -, hstop, -⟩ := h.deep a ha
  obtain ⟨s, hs, hstart, -⟩ := hmore.deep b hb
  have hproper := hr.proper
  exact .of_start hr.range_eq hs.range_eq (by order)

/-- Regular nodes that are laid out differ from one another, at any depth. -/
theorem differs (h : Laid src given rank start stop nodes) (hregular : AllRegular nodes) :
    (flatten nodes).Pairwise Differs := by
  induction h with
  | nil => exact .nil
  | @statement start stop range node rest hcovers _ _ _ _ hchildren hbranches hrest ihbranches
      ihrest =>
    obtain ⟨hnode, -, hbelow, hmore⟩ := allRegular_cons.mp hregular
    have hproper := hcovers.proper
    have hinner : node.inner = flatten node.branches := by
      rw [inner, hchildren]
      rfl
    rw [flatten_cons, hinner]
    refine List.pairwise_cons.mpr ⟨fun other hmem => ?_, List.pairwise_append.mpr
      ⟨ihbranches hbelow, ihrest hmore, hbranches.differs_of_apart hrest (le_refl _)⟩⟩
    rcases List.mem_append.mp hmem with hbranch | hlater
    · obtain ⟨inner, hinner, hlt⟩ := starts_after hcovers.range_eq hnode hbranches other hbranch
      exact .of_start hcovers.range_eq hinner hlt
    · obtain ⟨inner, hinner, hfrom, -⟩ := hrest.deep other hlater
      exact .of_start hcovers.range_eq hinner.range_eq (by order)
  | @branch start stop first last range node rest hcovers _ _ _ hkind hnone hencloses _ hchildren
      hrest ihchildren ihrest =>
    obtain ⟨-, hbelow, -, hmore⟩ := allRegular_cons.mp hregular
    have hproper := hcovers.proper
    have hinner : node.inner = flatten node.children := by
      rw [inner, hnone]
      exact List.append_nil _
    rw [flatten_cons, hinner]
    refine List.pairwise_cons.mpr ⟨fun other hmem => ?_, List.pairwise_append.mpr
      ⟨ihchildren hbelow, ihrest hmore, hchildren.differs_of_apart hrest hencloses.bounds.2⟩⟩
    rcases List.mem_append.mp hmem with hchild | hlater
    · exact hchildren.differs_of_encloses hcovers.range_eq hkind hencloses hbelow other hchild
    · obtain ⟨inner, hinner, hfrom, -⟩ := hrest.deep other hlater
      exact .of_start hcovers.range_eq hinner.range_eq (by order)

end Laid

end Node

namespace Diagram

open Node

theorem ofFunction_regular {src : Source} {file : SourceFile} {function : FunctionDef}
    {setting : Setting} {notices : Notices} {diagram : Diagram}
    (hread : SourceFile.read src = .ok file) (hfunction : function ∈ file.functions)
    (h : ofFunction setting notices function = .ok diagram) : AllRegular diagram.nodes := by
  obtain ⟨_, _, -, hlaid⟩ := ofFunction_laid hread hfunction h
  intro node hmem
  obtain ⟨_, -, -, -, hregular⟩ := hlaid.deep node hmem
  exact hregular

end Diagram

end Flowchart
