import Relocation.Extraction.Grammar.Expression

/-!
# Markup elements

Text between tags is not source text: it runs up to the next tag or expression in braces.
-/

namespace Relocation.Grammar.Reader

open Text

variable (g : Reader)

def markupWord : Rule := fun s => (markupName? s.peek).map (s.moveTo ·.stop)

/-- `: n` behind a name. -/
def qualified : Rule := andThen (punct ":") markupWord

/-- The name of an element: a plain name, a member of something or a name of a namespace. -/
def elementName : Rule := fun s => do
  let t ← markupWord s
  if t.sees "." then
    node "member_expression"
      (andThen (andThen (andThen markupWord (punct ".")) word) (g.self .dotted)) s
  else if t.sees ":" then node "jsx_namespace_name" (andThen markupWord qualified) s
  else node "identifier" markupWord s

def closingTag : Rule := fun s => do
  let s ← punct "<" s
  let s ← punct "/" s
  let s ← if (markupName? s.peek).isSome then g.elementName s else some s
  punct ">" s

/-- An opening tag up to its end. -/
def openingTag : Rule := fun s => do
  let s ← punct "<" s
  let s ← inField "name" g.elementName s
  let s ← g.typeArguments? s
  g.self .attributes s

def element : Rule := fun s => do
  let t ← punct "<" s
  if t.sees ">" then do
    let s ← punct ">" t
    let s ← g.self .children s
    g.closingTag s
  else do
    let t ← g.openingTag s.enter
    if t.sees "/" then
      let t ← andThen (punct "/") (punct ">") t
      some (s.close t "jsx_self_closing_element")
    else do
      let t ← punct ">" t
      let s ← g.self .children (s.close t "jsx_opening_element")
      g.closingTag s

def attributeValue : Rule := fun s =>
  match s.peek.next? with
  | some '\x7b' => andThen (andThen (punct "\x7b") (g.self .expression)) (punct "\x7d") s
  | some '<' => g.self .element s
  | _ => (attributeString? s.peek).map s.moveTo

def oneAttribute : Rule := fun s =>
  if s.sees "\x7b" then do
    let s ← punct "\x7b" s
    let s ← maybe (punct "...") s
    let s ← g.self .expression s
    punct "\x7d" s
  else do
    let s ← markupWord s
    let s ← if s.sees ":" then qualified s else some s
    whenever (punct "=") g.attributeValue s

def attributes : Rule := fun s =>
  if s.sees ">" || s.sees "/" then some s else andThen g.oneAttribute (g.self .attributes) s

/-- The place behind a run of plain text. -/
def pastText (c : Cursor) : Cursor :=
  c.dropWhile fun x => !(x == '<' || x == '>' || x == '\x7b' || x == '\x7d')

def children : Rule := fun s =>
  let s := s.moveTo (pastText s.cur)
  match s.cur.next? with
  | some '\x7b' => do
    let s ← punct "\x7b" s
    let s ← if s.sees "\x7d" then some s
      else andThen (maybe (punct "...")) (g.self .expression) s
    let s ← punct "\x7d" s
    g.self .children s
  | some '<' => do
    let t ← punct "<" s
    if t.sees "/" then some s else andThen (g.self .element) (g.self .children) s
  | _ => none

end Relocation.Grammar.Reader
