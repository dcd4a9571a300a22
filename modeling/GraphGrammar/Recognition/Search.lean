import GraphGrammar.Recognition.Fit
import GraphGrammar.Recognition.Limits
import GraphGrammar.Sorting

/-!
# The backtracking search

A plan lists the pattern elements in the order in which they are assigned.
The positive plan begins with the nodes, those with the most positive arcs and
hyperarcs first, and goes on with arcs and hyperarcs; the negative plan has the
negative elements.

The search goes through the extensions of the positive plan depth first. An
assignment of all positive elements is recorded if it meets the conditions on
the match as a whole and no extension of it assigns all negative elements too.
-/

namespace GraphGrammar

namespace Occurrence

/-! ## Plans

A plan fixes the order in which elements of the pattern get their images. Nodes come first, so
that an arc finds the images of its ends when its turn has come. -/

/-- The positive elements of the pattern in the order of assignment. -/
def positivePlan (s : Occurrence) : List PatternElement :=
  let l := s.rule.l
  let nodes := l.nodes.keys.filter (!s.rule.isNegativeNode ·)
  (sortBy (fun a b => s.positive.degree b ≤ s.positive.degree a) nodes).map .node
    ++ (l.arcs.keys.filter (!s.rule.isNegativeArc ·)).map .arc
    ++ (l.hyperarcs.keys.filter (!s.rule.isNegativeHyperArc ·)).map .hyperarc

/-- The negative elements of the pattern in the order of assignment. -/
def negativePlan (s : Occurrence) : List PatternElement :=
  let l := s.rule.l
  (l.nodes.keys.filter s.rule.isNegativeNode).map .node
    ++ (l.arcs.keys.filter s.rule.isNegativeArc).map .arc
    ++ (l.hyperarcs.keys.filter s.rule.isNegativeHyperArc).map .hyperarc

/-- The assignment that the search starts from. -/
def unassigned (s : Occurrence) : Assignment where
  nodes := List.replicate s.rule.l.nodes.count none
  arcs := List.replicate s.rule.l.arcs.count none
  hyperarcs := List.replicate s.rule.l.hyperarcs.count none

/-! ## Conditions on the match as a whole

These can be asked only when every positive element has its image. -/

/-- Every node of the host is an image. -/
def isSpanning (s : Occurrence) (a : Assignment) : Bool :=
  a.nodeImages.length == s.host.nodes.count

/-- Every arc of the host between images is an image. -/
def isInduced (s : Occurrence) (a : Assignment) : Bool :=
  s.host.arcs.entries.all fun (key, arc) =>
    !(arc.source.any a.nodeImages.contains && arc.target.any a.nodeImages.contains
      && !a.arcImages.contains key)

/-- The conditions that a rule puts on the match as a whole. -/
def isAdmissible (s : Occurrence) (a : Assignment) : Bool :=
  (!s.rule.spanning || s.isSpanning a) && (!s.rule.induced || s.isInduced a)

/-! ## The search

The search is in depth and carries its progress along: the steps it took, what it recorded, and
whether it was stopped. Once stopped it looks at nothing more. -/

/-- Counts the assignment of a node as a step; other elements cost nothing. -/
def expand (limits : Limits) (p : Progress) : PatternElement → Progress
  | .node _ => p.tick limits
  | _ => p

/-- Whether some extension of an assignment assigns the elements of a plan as
well. A search that is stopped has found none. -/
def canExtend (s : Occurrence) (limits : Limits) :
    List PatternElement → Assignment → Progress → Bool × Progress
  | [], _, p => (true, p)
  | element :: rest, a, p =>
    let p := expand limits p element
    if p.stopped then (false, p)
    else (s.extensions .negative a element).foldl (fun (hit, p) b =>
      if hit || p.stopped then (hit, p) else canExtend s limits rest b p) (false, p)

/-- Records an assignment of all positive elements if it is a match. -/
def conclude (s : Occurrence) (limits : Limits) (a : Assignment) (p : Progress) : Progress :=
  if !s.isAdmissible a then p
  else if s.negativePlan.isEmpty then p.record limits a
  else
    let (forbidden, p) := s.canExtend limits s.negativePlan a p
    if forbidden || p.stopped then p else p.record limits a

/-- Goes through the extensions of an assignment along a plan and records the
matches. -/
def search (s : Occurrence) (limits : Limits) :
    List PatternElement → Assignment → Progress → Progress
  | [], a, p => s.conclude limits a p
  | element :: rest, a, p =>
    let p := expand limits p element
    if p.stopped then p
    else (s.extensions .positive a element).foldl (fun p b =>
      if p.stopped then p else search s limits rest b p) p

/-- The whole search. -/
def run (s : Occurrence) (limits : Limits) : Progress :=
  s.search limits s.positivePlan s.unassigned {}

end Occurrence

end GraphGrammar
