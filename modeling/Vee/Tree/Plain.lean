import Vee.Tree.Match

/-!
# Matching by plain recursion

The rules of matching without a stack of unfinished patterns and without remembered failures: the tree of
a rule over a span is that of its first alternative that matches. The recursion goes to shorter spans, and
over the same span to rules of smaller rank.
-/

namespace Vee.Tree.Match

set_option autoImplicit false

open Grammar

/-- The first token, among `count` tokens from `index` on, that the element accepts and up to which the
inner rule matches. -/
def plainBoundary (inner : Span → Option Tree) (stop : Element) (tokens : Array Token)
    (start : Nat) : (count index : Nat) → Option (Nat × Tree)
  | 0, _ => none
  | count + 1, index =>
    let here :=
      if tokens[index]?.any fun t => stop.accepts t.kind then inner ⟨start, index⟩ else none
    match here with
    | some tree => some (index, tree)
    | none => plainBoundary inner stop tokens start count (index + 1)

/-- The tree of a rule whose pattern is matched from left to right. -/
def plainScan (inner : Name → Span → Option Tree) (tokens : Array Token) (rule : Name)
    (span : Span) (pattern : Pattern) (position index : Nat) (children : List Tree)
    (operator : Option Token) : Option Tree :=
  if index < span.stop then
    match pattern with
    | [] => none
    | [.rule name] =>
      (inner name ⟨index, span.stop⟩).map fun tree =>
        .node rule span (children ++ [tree]) operator
    | .rule name :: stop :: rest =>
      match plainBoundary (inner name) stop tokens index (span.stop - index) index with
      | none => none
      | some (cut, tree) =>
        plainScan inner tokens rule span rest (position + 2) (cut + 1) (children ++ [tree])
          (pick tokens rule (position + 1) cut operator)
    | element :: rest =>
      if tokens[index]?.any fun t => element.accepts t.kind then
        plainScan inner tokens rule span rest (position + 1) (index + 1) children
          (pick tokens rule position index operator)
      else none
  else if pattern.isEmpty then some (.node rule span children operator)
  else none

/-- The tree of a rule over a span. -/
def plain (tokens : Array Token) (rule : Name) (span : Span) : Option Tree :=
  if (table rule).terminal then
    match terminal tokens rule span with
    | .matched tree => some tree
    | _ => none
  else
    (table rule).alternatives.findSome? fun pattern =>
      match pattern with
      | [] => if span.length = 0 then some (.node rule span [] none) else none
      | [.rule name] => if rank name < rank rule then plain tokens name span else none
      | pattern =>
        plainScan (fun name s => if s.length < span.length then plain tokens name s else none)
          tokens rule span pattern 0 span.start [] none
termination_by (span.length, rank rule)

end Vee.Tree.Match
