import FlatExpr.Expr.Basic

/-!
# Outlines

An outline shows a tree with one node on a line, each indented one step deeper than its parent. It
may be cut off below a depth, where a line of dots stands for each omitted subtree.
-/

namespace FlatExpr.Expr

/-- How an outline is laid out. -/
structure OutlineStyle where
  /-- The indentation of one step. -/
  indent : Text := "  ".toList
  /-- The greatest depth that is shown, if there is one. -/
  maxDepth : Option Nat := none

/-- The word for a separator in an outline. -/
def separatorWord : Separator → Text
  | .comma => "Comma".toList
  | .dot => "Dot".toList
  | .colon => "Colon".toList
  | .space => "Space".toList

/-- What the line of a node says. -/
def headline : Expr → Text
  | .identifier name => "identifier ".toList ++ name
  | .numeric value => "numeric ".toList ++ value
  | .literal quote value => "literal ".toList ++ quote.symbol ++ value ++ quote.symbol
  | .prefixed op _ => "prefix ".toList ++ op.symbol
  | .postfixed _ op => "postfix ".toList ++ op.symbol
  | .binary _ op _ => "binary ".toList ++ op.symbol
  | .chain _ rest =>
    "chain ".toList ++ List.intercalate " ".toList (rest.map fun p => p.1.symbol)
  | .bracketed bracket _ => "brackets ".toList ++ bracket.opening ++ bracket.closing
  | .sequence _ separator => "sequence ".toList ++ separatorWord separator

namespace OutlineStyle

/-- A line at a depth. -/
def line (style : OutlineStyle) (depth : Nat) (content : Text) : Text :=
  (List.replicate depth style.indent).flatten ++ content ++ "\n".toList

/-- Whether nodes at a depth are omitted. -/
def omits (style : OutlineStyle) (depth : Nat) : Bool :=
  style.maxDepth.any fun most => most < depth

end OutlineStyle

mutual

/-- The outline of a tree whose root is at a depth. -/
def outlineAt (style : OutlineStyle) : Nat → Expr → Text
  | depth, e =>
    if style.omits depth then style.line depth "...".toList
    else
      style.line depth e.headline ++
        match e with
        | .identifier _ | .numeric _ | .literal _ _ => []
        | .prefixed _ operand | .postfixed operand _ => outlineAt style (depth + 1) operand
        | .binary left _ right =>
          outlineAt style (depth + 1) left ++ outlineAt style (depth + 1) right
        | .chain first rest =>
          outlineAt style (depth + 1) first ++ outlineLinks style (depth + 1) rest
        | .bracketed _ inner => outlineAt style (depth + 1) inner
        | .sequence terms _ => outlineTerms style (depth + 1) terms

/-- The outlines of further operands at a depth. -/
def outlineLinks (style : OutlineStyle) : Nat → List (InfixOp × Expr) → Text
  | _, [] => []
  | depth, (_, operand) :: rest => outlineAt style depth operand ++ outlineLinks style depth rest

/-- The outlines of terms at a depth. -/
def outlineTerms (style : OutlineStyle) : Nat → List Expr → Text
  | _, [] => []
  | depth, term :: terms => outlineAt style depth term ++ outlineTerms style depth terms

end

/-- The outline of a tree. -/
def outline (style : OutlineStyle) (e : Expr) : Text := outlineAt style 0 e

end FlatExpr.Expr
